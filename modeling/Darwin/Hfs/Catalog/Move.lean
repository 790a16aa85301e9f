import Darwin.Hfs.Catalog.Operations

/-!
# Moving and renaming nodes

`MoveRenameCatalogNode` keeps a volume consistent, unless a node that was found by an id embedded in
the name is moved under that name, or a node is moved out of the tree while the root folder has no
name.

## Main definitions

* `Volume.Regular` - neither is the case
-/

namespace Darwin.Hfs.Catalog

open List Darwin.Lib Option

variable {volume : Volume} {records records' : Records} {srcKey dstKey : CatalogKey}
  {data srcRecord : CatalogRecord} {kind : Kind} {n : ℕ}

/-! ## The records -/

theorem distinct_of_perm {e : CatalogKey × CatalogRecord}
    (distinct : DistinctKeys Prod.fst (skeleton records)) (perm : records.Perm (e :: records')) :
    (∀ e' ∈ skeleton records', e'.1 ≠ e.1.place) ∧ DistinctKeys Prod.fst (skeleton records') := by
  have distinct' := distinct.perm (skeleton_perm perm)
  rw [skeleton_cons, distinctKeys_cons] at distinct'
  exact distinct'

/-- A thread is rewritten in its place. -/
theorem rewriteThread_spec (distinct : DistinctKeys Prod.fst (skeleton records))
    (mem : (⟨n, []⟩, data) ∈ records) (rewrite : CatalogRecord → CatalogRecord) :
    ∃ records' rest, rewriteThread records n rewrite = .ok records' ∧
      records.Perm ((⟨n, []⟩, data) :: rest) ∧ records'.Perm ((⟨n, []⟩, rewrite data) :: rest) := by
  obtain ⟨rest, deleted, perm⟩ := delete_spec distinct mem rfl
  obtain ⟨records', inserted⟩ := @insert_isSome rest ⟨n, []⟩ (rewrite data)
    (distinct_of_perm distinct perm).1
  obtain ⟨perm', -⟩ := insert_spec inserted
  refine ⟨records', rest, ?_, perm, perm'⟩
  rw [rewriteThread, (search_eq_some distinct).mpr ⟨mem, rfl⟩]
  dsimp only
  rw [deleted]
  dsimp only
  rw [inserted]

variable (tree : Tree (skeleton records)) (mem : (srcKey, data) ∈ records)
  (node : data.node? = some (kind, n))

include tree mem node

/-- The record of a node, its thread, and the rest of the catalog. -/
theorem exists_rest :
    ∃ parentID nodeName rest, CatalogKey.place ⟨parentID, nodeName⟩ = srcKey.place ∧
      records.Perm ((srcKey, data) :: (⟨n, []⟩, .thread kind parentID nodeName) :: rest) := by
  obtain ⟨records₁, -, perm₁⟩ := delete_spec tree.distinct mem rfl
  obtain ⟨parentID, nodeName, thread, target⟩ := tree.search_thread mem node
  obtain ⟨threadInside, -⟩ := (search_eq_some tree.distinct).mp thread
  have thread₁ : (⟨n, []⟩, .thread kind parentID nodeName) ∈ records₁ := by
    rcases mem_cons.mp (perm₁.mem_iff.mp threadInside) with same | rest
    · injection same with _ same
      rw [← same] at node
      cases node
    · exact rest
  obtain ⟨rest, -, perm₂⟩ :=
    delete_spec (distinct_of_perm tree.distinct perm₁).2 thread₁ rfl
  exact ⟨parentID, nodeName, rest, target.symm, perm₁.trans (perm₂.cons _)⟩

/-- Either nothing is changed, or the record and the thread are. -/
theorem moveRecords_spec (node' : srcRecord.node? = some (kind, n)) (ne_zero : n ≠ 0)
    (dstKey : CatalogKey) (dstParentID : ℕ) (isNewName : Bool) :
    (∃ err, moveRecords records srcKey srcRecord dstKey dstParentID isNewName =
      .error (err, records)) ∨
    ∃ records' rest parentID nodeName,
      moveRecords records srcKey srcRecord dstKey dstParentID isNewName = .ok records' ∧
      CatalogKey.place ⟨parentID, nodeName⟩ = srcKey.place ∧
      records.Perm ((srcKey, data) :: (⟨n, []⟩, .thread kind parentID nodeName) :: rest) ∧
      records'.Perm ((dstKey, srcRecord) :: (⟨n, []⟩, .thread kind
        (if srcKey.parentID = dstParentID then parentID else dstParentID)
        (if isNewName then dstKey.nodeName else nodeName)) :: rest) ∧
      (∀ e ∈ skeleton rest, e.1 ≠ dstKey.place) ∧ (⟨n, none⟩ : Place _) ≠ dstKey.place := by
  obtain ⟨parentID, nodeName, rest, target, perm⟩ := exists_rest tree mem node
  let rewrite := CatalogRecord.redirect
    (if decide (srcKey.parentID = dstParentID) = true then none else some dstParentID)
    (if isNewName then some dstKey.nodeName else none)
  have rewritten : rewrite (.thread kind parentID nodeName) = .thread kind
      (if srcKey.parentID = dstParentID then parentID else dstParentID)
      (if isNewName then dstKey.nodeName else nodeName) := by
    show CatalogRecord.thread kind _ _ = _
    congr 1
    · by_cases same : srcKey.parentID = dstParentID <;> simp [same]
    · cases isNewName <;> rfl
  have threadInside : (⟨n, []⟩, .thread kind parentID nodeName) ∈ records :=
    perm.mem_iff.mpr (mem_cons_of_mem _ mem_cons_self)
  have distinct := distinct_of_perm tree.distinct perm
  have distinctRest : ∀ e ∈ skeleton rest, e.1 ≠ srcKey.place := fun e mem =>
    distinct.1 e (mem_cons_of_mem _ mem)
  rw [moveRecords]
  rw [insertMoved]
  cases inserted : insertBTreeRecord records dstKey srcRecord with
  | some records₁ =>
    right
    obtain ⟨perm₁, fresh⟩ := insert_spec inserted
    have distinct₁ : DistinctKeys Prod.fst (skeleton records₁) := by
      refine DistinctKeys.perm ?_ (skeleton_perm perm₁).symm
      rw [skeleton_cons, distinctKeys_cons]
      exact ⟨fresh, tree.distinct⟩
    -- the new record, the old one, the thread and the rest
    have all₁ : records₁.Perm ((⟨n, []⟩, .thread kind parentID nodeName) :: (srcKey, data) ::
        (dstKey, srcRecord) :: rest) := by
      refine (perm₁.trans (perm.cons _)).trans ?_
      refine (List.Perm.swap ..).trans (List.Perm.trans (List.Perm.cons _ (List.Perm.swap ..)) ?_)
      exact List.Perm.swap ..
    obtain ⟨records₂, rest₂, rewrote, perm₂, perm₂'⟩ := rewriteThread_spec distinct₁
      (all₁.mem_iff.mpr mem_cons_self) rewrite
    have rest₂_perm : rest₂.Perm ((srcKey, data) :: (dstKey, srcRecord) :: rest) :=
      (perm₂.symm.trans all₁).cons_inv
    have distinct₂ : DistinctKeys Prod.fst (skeleton records₂) := by
      have distinctRest₂ := distinct_of_perm distinct₁ perm₂
      refine DistinctKeys.perm ?_ (skeleton_perm perm₂').symm
      rw [skeleton_cons, distinctKeys_cons]
      exact distinctRest₂
    have all₂ : records₂.Perm ((srcKey, data) :: (⟨n, []⟩, rewrite (.thread kind parentID nodeName))
        :: (dstKey, srcRecord) :: rest) :=
      (perm₂'.trans (rest₂_perm.cons _)).trans (List.Perm.swap ..)
    obtain ⟨records₃, deleted, perm₃⟩ :=
      delete_spec distinct₂ (all₂.mem_iff.mpr mem_cons_self) rfl
    have all₃ : records₃.Perm ((dstKey, srcRecord) ::
        (⟨n, []⟩, rewrite (.thread kind parentID nodeName)) :: rest) :=
      (perm₃.symm.trans all₂).cons_inv.trans (List.Perm.swap ..)
    rw [rewritten] at all₃
    refine ⟨records₃, rest, parentID, nodeName, ?_, target, perm, all₃, fun e inside' => ?_, ?_⟩
    · dsimp only
      rw [node', map_some, getD_some, if_pos ne_zero, rewrote]
      dsimp only
      rw [if_neg (by simp), deleted]
    · exact fresh e ((skeleton_perm perm).mem_iff.mpr
        (mem_cons_of_mem _ (mem_cons_of_mem _ inside')))
    · exact fresh _ (mem_skeleton threadInside)
  | none =>
    by_cases refused : (!decide (srcKey.parentID = dstParentID) || !isNewName) = true
    · left
      rw [if_pos refused]
      exact ⟨.cmExists, rfl⟩
    rw [if_neg refused]
    cases found : searchBTreeRecord records dstKey with
    | none =>
      rw [insertBTreeRecord, found] at inserted
      cases inserted
    | some e =>
      obtain ⟨tmpKey, tmpRecord⟩ := e
      obtain ⟨tmpInside, tmpPlace⟩ := (search_eq_some tree.distinct).mp found
      dsimp only
      by_cases other : srcRecord.node? = none ∨ srcRecord.node? ≠ tmpRecord.node?
      · left
        rw [if_pos other]
        exact ⟨.cmExists, rfl⟩
      right
      rw [if_neg other]
      -- the name is taken by the node itself
      have same : srcKey.place = dstKey.place := by
        rw [not_or, not_not, node'] at other
        have tmp := mem_skeleton tmpInside
        rw [node?_eq_some.mp other.2.symm] at tmp
        have src := mem_skeleton mem
        rw [node?_eq_some.mp node] at src
        rw [← tmpPlace]
        exact (tree.eq_of_id src tmp).1
      obtain ⟨records₁, deleted, perm₁⟩ := delete_spec tree.distinct mem rfl
      have distinct₁ := distinct_of_perm tree.distinct perm₁
      have absent : ∀ e ∈ skeleton records₁, e.1 ≠ dstKey.place := by
        intro e inside'
        rw [← same]
        exact distinct₁.1 e inside'
      obtain ⟨records₂, inserted₂⟩ := @insert_isSome records₁ dstKey srcRecord absent
      obtain ⟨perm₂, -⟩ := insert_spec inserted₂
      have rest₁ : records₁.Perm ((⟨n, []⟩, .thread kind parentID nodeName) :: rest) :=
        (perm₁.symm.trans perm).cons_inv
      have all₂ : records₂.Perm ((⟨n, []⟩, .thread kind parentID nodeName) ::
          (dstKey, srcRecord) :: rest) :=
        (perm₂.trans (rest₁.cons _)).trans (List.Perm.swap ..)
      have distinct₂ : DistinctKeys Prod.fst (skeleton records₂) := by
        refine DistinctKeys.perm ?_ (skeleton_perm perm₂).symm
        rw [skeleton_cons, distinctKeys_cons]
        exact ⟨absent, distinct₁.2⟩
      obtain ⟨records₃, rest₃, rewrote, perm₃, perm₃'⟩ := rewriteThread_spec distinct₂
        (all₂.mem_iff.mpr mem_cons_self) rewrite
      have rest₃_perm : rest₃.Perm ((dstKey, srcRecord) :: rest) :=
        (perm₃.symm.trans all₂).cons_inv
      have all₃ := (perm₃'.trans (rest₃_perm.cons _)).trans (List.Perm.swap ..)
      rw [rewritten] at all₃
      refine ⟨records₃, rest, parentID, nodeName, ?_, target, perm, all₃, ?_, ?_⟩
      · rw [deleted]
        dsimp only
        rw [inserted₂]
        dsimp only
        rw [node', map_some, getD_some, if_pos ne_zero, rewrote]
        rfl
      · intro e inside'
        rw [← same]
        exact distinctRest e inside'
      · rw [← same]
        exact distinct.1 _ mem_cons_self

omit tree mem node

/-! ## The tree -/

theorem setTextEncoding_node? (textEncoding : ℕ) (data : CatalogRecord) :
    (data.setTextEncoding textEncoding).node? = data.node? := by
  cases data <;> rfl

variable {k : Place (List UInt16)} {v textEncoding fuel : ℕ} {dstFolderKey : CatalogKey}

/-- A node is not in itself. -/
theorem Tree.parent_ne {l : List (Place (List UInt16) × Item (List UInt16))} (tree : Tree l) (mem : (k, .node kind n) ∈ l) : k.parent ≠ n := by
  have loop : ∀ x, Reaches l x → x = n → k.parent = n → False := by
    intro x reaches
    induction reaches with
    | root =>
      rintro rfl parent
      rw [tree.rootPlace k kind mem] at parent
      cases parent
    | @up k₁ kind₁ x inside₁ rest ih =>
      rintro rfl parent
      obtain ⟨rfl, rfl⟩ := tree.eq_of_id mem inside₁
      exact ih parent parent
  exact loop n (tree.reaches k kind n mem) rfl

/-- The folders above the destination, as the loop sees them. -/
theorem ancestorLoop_avoids (tree : Tree (skeleton records))
    (ids : ∀ k kind n, (k, .node kind n) ∈ skeleton records → n = 2 ∨ 16 ≤ n) (notRoot : n ≠ 2)
    (fuel ancestor : ℕ) (exists_ : ∃ k, (k, .node .folder ancestor) ∈ skeleton records)
    (other : n ≠ ancestor) (proper : ancestorLoop records n fuel ancestor = some .noErr) :
    Avoids (skeleton records) n ancestor := by
  induction fuel generalizing ancestor with
  | zero =>
    rw [ancestorLoop] at proper
    split_ifs at proper with top
    obtain ⟨k, mem⟩ := exists_
    have := ids k .folder ancestor mem
    obtain rfl : ancestor = 2 := by rw [fsRtDirID] at top; omega
    exact .root notRoot
  | succ fuel ih =>
    obtain ⟨k, mem⟩ := exists_
    have id := ids k .folder ancestor mem
    rw [ancestorLoop] at proper
    split_ifs at proper with top
    · obtain rfl : ancestor = 2 := by rw [fsRtDirID] at top; omega
      exact .root notRoot
    have below : ancestor ≠ 2 := by rw [fsRtDirID] at top; omega
    obtain ⟨key, valence, textEncoding, inside', rfl⟩ := exists_folder_of_mem mem
    have positive : ∀ k kind n, (k, .node kind n) ∈ skeleton records → n ≠ 0 := by
      intro k kind n mem
      have := ids k kind n mem
      omega
    rw [locate_of_id tree positive inside' rfl] at proper
    dsimp only at proper
    split_ifs at proper with cycle
    · cases proper
    · obtain ⟨-, folder⟩ := tree.parents _ _ _ mem below
      exact .up mem other (ih key.parentID folder cycle proper)

/-- The loop ends, since every way up does. -/
theorem exists_ancestorLoop (tree : Tree (skeleton records))
    (positive : ∀ k kind n, (k, .node kind n) ∈ skeleton records → n ≠ 0) (srcFolderID : ℕ)
    {ancestor : ℕ} (reaches : Reaches (skeleton records) ancestor) :
    ∃ fuel err, ancestorLoop records srcFolderID fuel ancestor = some err := by
  induction reaches with
  | root =>
    refine ⟨0, .noErr, ?_⟩
    rw [ancestorLoop]
    rfl
  | @up k kind m mem rest ih =>
    obtain ⟨fuel, err, ended⟩ := ih
    obtain ⟨key, data, inside', rfl, item⟩ := exists_of_mem_skeleton mem
    by_cases top : m ≤ fsRtDirID
    · refine ⟨0, .noErr, ?_⟩
      rw [ancestorLoop, if_pos top]
    by_cases cycle : srcFolderID = key.parentID
    · refine ⟨fuel + 1, .badMovErr, ?_⟩
      rw [ancestorLoop, if_neg top, locate_of_id tree positive inside' (node?_eq_some.mpr item)]
      dsimp only
      rw [if_pos cycle]
    · refine ⟨fuel + 1, err, ?_⟩
      rw [ancestorLoop, if_neg top, locate_of_id tree positive inside' (node?_eq_some.mpr item)]
      dsimp only
      rw [if_neg cycle]
      exact ended

/-! ## Consistency -/

/-- A free place in a folder has a name, since the place without one is taken by the thread of the
folder. -/
theorem named_of_fresh {l r : List (Place (List UInt16) × Item (List UInt16))} (tree : Tree l) (perm : l.Perm ((k, .node kind n) :: (⟨n, none⟩, .thread kind k) :: r))
    (fresh : ∀ e ∈ r, e.1 ≠ dstKey.place) (other : (⟨n, none⟩ : Place (List UInt16)) ≠ dstKey.place)
    (folder : ∃ k, (k, .node .folder dstKey.parentID) ∈ l) : dstKey.place.name.isSome := by
  rw [isSome_iff_ne_none]
  intro noName
  have same : dstKey.place = ⟨dstKey.parentID, none⟩ := Place.ext rfl noName
  obtain ⟨k, folder⟩ := folder
  have thread := tree.threaded k .folder _ folder
  rcases mem_cons.mp (perm.mem_iff.mp thread) with node | rest
  · injection node with _ item
    cases item
  rcases mem_cons.mp rest with own | rest
  · injection own with own _
    exact other (own ▸ same.symm)
  · exact fresh _ rest same.symm

/-- The entries before and after a move. -/
structure Moves (records records' rest : Records) (srcKey dstKey : CatalogKey)
    (data srcRecord : CatalogRecord) (kind : Kind) (n : ℕ) : Prop where
  node : data.node? = some (kind, n)
  node' : srcRecord.node? = some (kind, n)
  before : ∃ thread, thread.node? = none ∧
    records.Perm ((srcKey, data) :: (⟨n, []⟩, thread) :: rest)
  after : ∃ thread, thread.node? = none ∧
    records'.Perm ((dstKey, srcRecord) :: (⟨n, []⟩, thread) :: rest)
  entriesBefore : (skeleton records).Perm ((srcKey.place, .node kind n) ::
    (⟨n, none⟩, .thread kind srcKey.place) :: skeleton rest)
  entriesAfter : (skeleton records').Perm ((dstKey.place, .node kind n) ::
    (⟨n, none⟩, .thread kind dstKey.place) :: skeleton rest)
  fresh : ∀ e ∈ skeleton rest, e.1 ≠ dstKey.place
  other : (⟨n, none⟩ : Place (List UInt16)) ≠ dstKey.place

variable {rest : Records}

namespace Moves

variable (moves : Moves records records' rest srcKey dstKey data srcRecord kind n)

include moves

theorem inside :
    (srcKey.place, .node kind n) ∈ skeleton records :=
  moves.entriesBefore.mem_iff.mpr mem_cons_self

/-- A folder that is not moved is still in its place. -/
theorem stays
    {k : Place (List UInt16)} {kind' : Kind} {m : ℕ} (mem : (k, .node kind' m) ∈ skeleton records)
    (other : m ≠ n) : (k, .node kind' m) ∈ skeleton records' := by
  rcases mem_cons.mp (moves.entriesBefore.mem_iff.mp mem) with moved | rest
  · injection moved with _ h₂
    injection h₂ with _ h₃
    exact absurd h₃ other
  · rcases mem_cons.mp rest with thread | rest
    · cases thread
    · exact moves.entriesAfter.mem_iff.mpr (mem_cons_of_mem _ (mem_cons_of_mem _ rest))

theorem nodes_eq
    (kind' : Kind) : nodes (skeleton records') kind' = nodes (skeleton records) kind' := by
  rw [nodes_perm moves.entriesBefore, nodes_perm moves.entriesAfter, nodes_cons_node,
    nodes_cons_thread, nodes_cons_node, nodes_cons_thread]

/-- The nodes have the same ids as before. -/
theorem ids {k : Place (List UInt16)} {kind' : Kind} {m : ℕ}
    (mem : (k, .node kind' m) ∈ skeleton records') : ∃ k', (k', .node kind' m) ∈ skeleton records := by
  rcases mem_cons.mp (moves.entriesAfter.mem_iff.mp mem) with moved | rest
  · injection moved with _ h₂
    injection h₂ with h₂ h₃
    subst h₂ h₃
    exact ⟨srcKey.place, moves.inside⟩
  · rcases mem_cons.mp rest with thread | rest
    · cases thread
    · exact ⟨k, moves.entriesBefore.mem_iff.mpr (mem_cons_of_mem _ (mem_cons_of_mem _ rest))⟩

theorem named (tree : Tree (skeleton records))
    (folder : ∃ k, (k, .node .folder dstKey.parentID) ∈ skeleton records) :
    dstKey.place.name.isSome :=
  named_of_fresh tree moves.entriesBefore moves.fresh moves.other folder

theorem children_before (named : srcKey.place.name.isSome) (m : ℕ) : children (skeleton records) m =
      children (skeleton rest) m + if m = srcKey.parentID then 1 else 0 := by
  rw [children_perm moves.entriesBefore, children_cons_node named, children_cons_noName rfl]
  rfl

theorem children_after (named : dstKey.place.name.isSome) (m : ℕ) : children (skeleton records') m =
      children (skeleton rest) m + if m = dstKey.parentID then 1 else 0 := by
  rw [children_perm moves.entriesAfter, children_cons_node named, children_cons_noName rfl]
  rfl

end Moves

variable (consistent : volume.Consistent)
  (moves : Moves volume.records records' rest srcKey dstKey data srcRecord kind n)
  (sameValence : ∀ m v textEncoding, srcRecord = .folder m v textEncoding → ∃ textEncoding', data = .folder m v textEncoding')

include consistent moves sameValence

/-- The valences that the folder records say are those of before the move. -/
theorem Volume.Consistent.moved_valences {key : CatalogKey} {m : ℕ}
    (mem : (key, .folder m v textEncoding) ∈ records') :
    v = children (skeleton volume.records) m := by
  obtain ⟨thread, isThread, after⟩ := moves.after
  obtain ⟨thread', -, before⟩ := moves.before
  rcases mem_cons.mp (after.mem_iff.mp mem) with moved | old
  · injection moved with _ same
    obtain ⟨textEncoding', rfl⟩ := sameValence m v textEncoding same.symm
    exact consistent.valences srcKey m v textEncoding' (before.mem_iff.mpr mem_cons_self)
  rcases mem_cons.mp old with own | old
  · injection own with _ same
    rw [← same] at isThread
    cases isThread
  · exact consistent.valences key m v textEncoding
      (before.mem_iff.mpr (mem_cons_of_mem _ (mem_cons_of_mem _ old)))

/-- A node gets another name in its folder. -/
theorem Volume.Consistent.renamed (sameFolder : srcKey.parentID = dstKey.parentID) :
    Volume.Consistent { volume with records := records' } := by
  have tree := consistent.tree
  have folder : n ≠ 2 → ∃ k, (k, .node .folder dstKey.parentID) ∈ skeleton volume.records := by
    intro notRoot
    rw [← sameFolder]
    exact (tree.parents _ kind n moves.inside notRoot).2
  have tree' : Tree (skeleton records') := by
    refine tree.move moves.entriesBefore moves.entriesAfter moves.fresh moves.other (fun top => ?_)
      (fun notRoot => ⟨moves.named tree (folder notRoot), folder notRoot⟩)
      fun _ => .inl sameFolder.symm
    have parent := tree.rootPlace srcKey.place kind (top ▸ moves.inside)
    exact sameFolder.symm.trans parent
  constructor
  case tree => exact tree'
  case valences =>
    intro key m v textEncoding mem
    rw [consistent.moved_valences moves sameValence mem]
    show children (skeleton volume.records) m = children (skeleton records') m
    by_cases top : n = 2
    · -- the root folder is not in a folder
      obtain ⟨k, old⟩ := moves.ids (mem_skeleton mem)
      have id := consistent.ids k .folder m old
      have parent : srcKey.place.parent = 1 := tree.rootPlace srcKey.place kind (top ▸ moves.inside)
      have parent' : dstKey.place.parent = 1 := sameFolder.symm.trans parent
      rw [children_perm moves.entriesBefore, children_perm moves.entriesAfter,
        children_cons_elsewhere (by omega), children_cons_noName rfl,
        children_cons_elsewhere (by omega), children_cons_noName rfl]
    · have named := (tree.parents _ kind n moves.inside top).1
      rw [moves.children_before named, moves.children_after (moves.named tree (folder top)),
        sameFolder]
  case files => exact consistent.files.trans (moves.nodes_eq .file).symm
  case folders => exact consistent.folders.trans (moves.nodes_eq .folder).symm
  case ids =>
    intro k kind' m mem
    obtain ⟨k', old⟩ := moves.ids mem
    exact consistent.ids k' kind' m old
  case next => exact consistent.next

/-- A node is put into another folder, and the valences of both are changed. -/
theorem Volume.Consistent.moved (notRoot : n ≠ 2)
    (otherFolder : srcKey.parentID ≠ dstKey.parentID)
    (folder : (dstFolderKey.place, .node .folder dstKey.parentID) ∈ skeleton volume.records)
    (avoids : Avoids (skeleton volume.records) n dstKey.parentID) :
    ((Volume.updateFolderCount { volume with records := records' } ⟨srcKey.parentID, []⟩ kind
      (-1)).2.updateFolderCount dstFolderKey kind 1).2.Consistent := by
  have tree := consistent.tree
  have next := consistent.next
  have named' := moves.named tree ⟨_, folder⟩
  obtain ⟨named, srcFolder⟩ := tree.parents _ kind n moves.inside notRoot
  have tree' : Tree (skeleton records') :=
    tree.move moves.entriesBefore moves.entriesAfter moves.fresh moves.other
      (fun top => absurd top notRoot) (fun _ => ⟨named', _, folder⟩) fun _ => .inr avoids
  have ids' : ∀ k kind' m, (k, .node kind' m) ∈ skeleton records' →
      m = 2 ∨ (16 ≤ m ∧ m < volume.vcbNxtCNID) := by
    intro k kind' m mem
    obtain ⟨k', old⟩ := moves.ids mem
    exact consistent.ids k' kind' m old
  have positive' : ∀ k kind' m, (k, .node kind' m) ∈ skeleton records' → m ≠ 0 := by
    intro k kind' m mem
    have := ids' k kind' m mem
    omega
  have counted : ∀ m, children (skeleton records') m + (if m = srcKey.parentID then 1 else 0) =
      children (skeleton volume.records) m + if m = dstKey.parentID then 1 else 0 := by
    intro m
    rw [moves.children_before named, moves.children_after named']
    exact add_right_comm ..
  have bound : ∀ m, children (skeleton records') m ≤ volume.vcbNxtCNID := by
    refine tree'.children_le fun k kind' m mem => ?_
    have := ids' k kind' m mem
    omega
  -- the folder that the node was in
  obtain ⟨k', srcFolder⟩ := srcFolder
  have srcFolder' : (k', .node .folder srcKey.parentID) ∈ skeleton records' :=
    moves.stays srcFolder (tree.parent_ne moves.inside)
  obtain ⟨srcFolderKey, v₁, encoding₁, srcInside, -⟩ := exists_folder_of_mem srcFolder'
  obtain ⟨volume₂, updated₂, perm₂, nextId₂, filCnt₂, dirCnt₂, valences₂⟩ :=
    @updateFolderCount_spec ⟨srcKey.parentID, []⟩ srcFolderKey srcKey.parentID v₁ encoding₁
      { volume with records := records' } tree' (locate_of_id tree' positive' srcInside rfl) srcInside
      kind (-1)
  rw [updated₂]
  -- the folder that it is in now
  have tree₂ : Tree (skeleton volume₂.records) := tree'.perm perm₂
  have dstOther : dstKey.parentID ≠ n := by
    rintro same
    rw [same] at avoids
    cases avoids with
    | root other => exact other rfl
    | up _ other _ => exact other rfl
  have folder₂ : (dstFolderKey.place, .node .folder dstKey.parentID) ∈ skeleton volume₂.records :=
    perm₂.mem_iff.mp (moves.stays folder dstOther)
  obtain ⟨dstFolderKey', v₂, encoding₂, dstInside, dstPlace⟩ := exists_folder_of_mem folder₂
  obtain ⟨volume₃, updated₃, perm₃, nextId₃, filCnt₃, dirCnt₃, valences₃⟩ :=
    @updateFolderCount_spec dstFolderKey dstFolderKey' dstKey.parentID v₂ encoding₂ volume₂ tree₂
      (locate_of_key tree₂.distinct dstInside rfl dstPlace) dstInside kind 1
  rw [updated₃]
  have all : (skeleton records').Perm (skeleton volume₃.records) := perm₂.trans perm₃
  have nextId : volume₃.vcbNxtCNID = volume.vcbNxtCNID := nextId₃.trans nextId₂
  have valences' : ∀ {key m v textEncoding}, (key, .folder m v textEncoding) ∈ volume₂.records →
      v = children (skeleton records') m - if m = dstKey.parentID then 1 else 0 := by
    intro key m v textEncoding mem
    have counts := counted m
    rcases valences₂ key m v textEncoding mem with ⟨rfl, rfl⟩ | ⟨other, inside'⟩
    · have before := consistent.moved_valences moves sameValence srcInside
      rw [if_pos rfl, if_neg otherFolder] at counts
      have wide := bound srcKey.parentID
      rw [if_neg otherFolder, before, Nat.sub_zero]
      have step : children (skeleton volume.records) srcKey.parentID =
          children (skeleton records') srcKey.parentID + 1 := by omega
      have wide' := tree.children_le consistent.below srcKey.parentID
      rw [step]
      exact adjust_neg_one (by omega)
    · rw [if_neg other] at counts
      rw [consistent.moved_valences moves sameValence inside']
      omega
  constructor
  case tree => exact tree'.perm all
  case valences =>
    intro key m v textEncoding mem
    rw [← children_perm all]
    rcases valences₃ key m v textEncoding mem with ⟨rfl, rfl⟩ | ⟨other, inside'⟩
    · have before := valences' dstInside
      have counts := counted dstKey.parentID
      have wide := bound dstKey.parentID
      rw [if_pos rfl] at before counts
      rw [if_neg (Ne.symm otherFolder)] at counts
      rw [adjust_one (by omega)]
      omega
    · have before := valences' inside'
      rwa [if_neg other] at before
  case files =>
    show volume₃.vcbFilCnt = _
    rw [filCnt₃, filCnt₂, ← nodes_perm all, moves.nodes_eq]
    exact consistent.files
  case folders =>
    show volume₃.vcbDirCnt + 1 = _
    rw [dirCnt₃, dirCnt₂, ← nodes_perm all, moves.nodes_eq]
    exact consistent.folders
  case ids =>
    intro k kind' m mem
    rw [nextId]
    exact ids' k kind' m (all.mem_iff.mpr mem)
  case next =>
    rw [nextId]
    exact next

omit consistent moves sameValence

/-- The part of the call that changes the volume. -/
theorem Volume.Consistent.relocate (consistent : volume.Consistent)
    (mem : (srcKey, data) ∈ volume.records) (node : data.node? = some (kind, n)) {isNewName : Bool}
    (textEncoding : ℕ)
    (sameFolder : srcKey.parentID = dstKey.parentID → isNewName = true)
    (sameName : isNewName = false → dstKey.place.name = srcKey.place.name ∨ dstKey.nodeName = [])
    (otherFolder : srcKey.parentID ≠ dstKey.parentID → n ≠ 2 ∧
      (dstFolderKey.place, .node .folder dstKey.parentID) ∈ skeleton volume.records ∧
      Avoids (skeleton volume.records) n dstKey.parentID) :
    (volume.relocate srcKey data dstKey dstKey.parentID isNewName textEncoding
      dstFolderKey).2.Consistent := by
  have tree := consistent.tree
  have entry := mem_skeleton mem
  rw [node?_eq_some.mp node] at entry
  have ne_zero : n ≠ 0 := consistent.positive _ kind n entry
  rw [Volume.relocate]
  generalize record : (if isNewName = true then data.setTextEncoding textEncoding else data) = srcRecord
  have node' : srcRecord.node? = some (kind, n) := by
    rw [← record]
    split_ifs
    · rw [setTextEncoding_node?, node]
    · exact node
  have sameValence : ∀ m v textEncoding, srcRecord = .folder m v textEncoding →
      ∃ textEncoding', data = .folder m v textEncoding' := by
    intro m v textEncoding₁ folder
    rw [← record] at folder
    split_ifs at folder
    · cases data with
      | folder m' v' textEncoding' =>
        injection folder with h₁ h₂
        subst h₁ h₂
        exact ⟨textEncoding', rfl⟩
      | file => cases folder
      | thread => cases folder
    · exact ⟨textEncoding₁, folder⟩
  rcases moveRecords_spec tree mem node node' ne_zero dstKey dstKey.parentID isNewName with
    ⟨err, failed⟩ | ⟨records', rest, parentID, nodeName, moved, target, before, after, fresh, other⟩
  · rw [failed]
    exact consistent
  rw [moved]
  have parent : parentID = srcKey.parentID := congrArg Place.parent target
  have entriesBefore : (skeleton volume.records).Perm ((srcKey.place, .node kind n) ::
      (⟨n, none⟩, .thread kind srcKey.place) :: skeleton rest) := by
    have mapped := skeleton_perm before
    rw [skeleton_cons, skeleton_cons, Catalog.entry, node?_eq_some.mp node] at mapped
    rw [← target] at mapped ⊢
    exact mapped
  -- the thread says the new place
  have target' : CatalogKey.place
      ⟨if srcKey.parentID = dstKey.parentID then parentID else dstKey.parentID,
        if isNewName then dstKey.nodeName else nodeName⟩ = dstKey.place := by
    have inFolder : (if srcKey.parentID = dstKey.parentID then parentID else dstKey.parentID) =
        dstKey.parentID := by
      split_ifs with same
      · exact parent.trans same
      · rfl
    rw [inFolder]
    cases isNewName with
    | true => rfl
    | false =>
      rcases sameName rfl with same | noName
      · refine Place.ext rfl ?_
        rw [same, ← target]
        rfl
      obtain ⟨-, folder, -⟩ := otherFolder fun same => by cases sameFolder same
      have named := named_of_fresh tree entriesBefore fresh other ⟨_, folder⟩
      rw [place_name_eq_none.mpr noName] at named
      cases named
  have entriesAfter : (skeleton records').Perm ((dstKey.place, .node kind n) ::
      (⟨n, none⟩, .thread kind dstKey.place) :: skeleton rest) := by
    have mapped := skeleton_perm after
    rw [skeleton_cons, skeleton_cons, Catalog.entry, node?_eq_some.mp node', Catalog.entry,
      CatalogRecord.item, target'] at mapped
    exact mapped
  have moves : Moves volume.records records' rest srcKey dstKey data srcRecord kind n :=
    ⟨node, node', ⟨_, rfl, before⟩, ⟨_, rfl, after⟩, entriesBefore, entriesAfter, fresh, other⟩
  split_ifs with away
  · obtain ⟨notRoot, folder, avoids⟩ := otherFolder away
    rw [node', map_some, getD_some]
    exact consistent.moved moves sameValence notRoot away folder avoids
  · exact consistent.renamed moves sameValence (not_not.mp away)

/-- The node that is called by a name is there under that name, or by its thread, if it is to be
moved under it; and the root folder has a name if something is to be moved next to it. -/
def Volume.Regular (volume : Volume) (srcParentID : ℕ) (srcName : List UInt8) (dstParentID : ℕ)
    (dstName : List UInt8) : Prop :=
  ∀ srcKey textEncoding subject, buildCatalogKeyUTF8 srcParentID srcName = .ok (srcKey, textEncoding) →
    locateSubject volume.records srcKey srcName = some subject → subject.1.parentID ≠ dstParentID →
      (sameName srcName dstName → (locateCatalogNode volume.records srcKey).isSome) ∧
      (dstParentID = fsRtParID → searchBTreeRecord volume.records ⟨fsRtParID, []⟩ = none)

/-- What a proper move is. -/
theorem properMove_avoids (consistent : volume.Consistent) (mem : (srcKey, data) ∈ volume.records)
    (node : data.node? = some (kind, n)) {folderID : ℕ}
    (folder : (dstFolderKey, .folder folderID v textEncoding) ∈ volume.records)
    (proper : properMove volume.records fuel data folderID dstFolderKey = some .noErr) :
    n ≠ 2 ∧ Avoids (skeleton volume.records) n folderID := by
  have tree := consistent.tree
  have entry := mem_skeleton mem
  rw [node?_eq_some.mp node] at entry
  have folderEntry := mem_skeleton folder
  cases data with
  | thread => cases node
  | file fileID textEncoding' =>
    cases node
    refine ⟨?_, tree.avoids_of_file entry (tree.reaches _ _ _ folderEntry) ⟨_, folderEntry⟩⟩
    rintro rfl
    obtain ⟨k, root⟩ := tree.root
    cases (tree.eq_of_id entry root).2
  | folder srcFolderID valence textEncoding' =>
    cases node
    rw [properMove] at proper
    split_ifs at proper with bad
    · cases proper
    rw [not_or, not_or] at bad
    obtain ⟨notRoot, notDst, notParent⟩ := bad
    refine ⟨notRoot, ?_⟩
    by_cases top : folderID = 2
    · subst top
      exact .root notRoot
    obtain ⟨-, parentFolder⟩ := tree.parents _ _ _ folderEntry top
    refine .up folderEntry notDst ?_
    refine ancestorLoop_avoids tree (fun k kind m mem => ?_) notRoot fuel _ parentFolder
      notParent proper
    have := consistent.ids k kind m mem
    omega

theorem Volume.Consistent.moveRename (consistent : volume.Consistent) {srcParentID : ℕ}
    {srcName : List UInt8} {dstParentID : ℕ} {dstName : List UInt8} {err : OSErr} {volume' : Volume}
    (regular : volume.Regular srcParentID srcName dstParentID dstName)
    (returned : volume.moveRenameCatalogNode fuel srcParentID srcName dstParentID dstName =
      some (err, volume')) : volume'.Consistent := by
  have tree := consistent.tree
  have unchanged : ∀ {err'}, some (err', volume) = some (err, volume') → volume'.Consistent := by
    intro err' same
    rw [← (Prod.mk.inj (some.inj same)).2]
    exact consistent
  have changed : ∀ {result : OSErr × Volume}, some result = some (err, volume') →
      result.2.Consistent → volume'.Consistent := by
    intro result same consistent'
    rw [some.inj same] at consistent'
    exact consistent'
  rw [Volume.moveRenameCatalogNode.eq_def] at returned
  cases built : buildCatalogKeyUTF8 srcParentID srcName with
  | error err' =>
    rw [built] at returned
    exact unchanged returned
  | ok result =>
    obtain ⟨key, srcEncoding⟩ := result
    rw [built] at returned
    dsimp only at returned
    generalize destination : (if (!sameName srcName dstName) = true then
      buildCatalogKeyUTF8 dstParentID dstName
      else .ok (⟨dstParentID, key.nodeName⟩, srcEncoding)) = dst at returned
    cases dst with
    | error err' => exact unchanged returned
    | ok result =>
      obtain ⟨dstKey, textEncoding⟩ := result
      have inFolder : dstKey.parentID = dstParentID := by
        split_ifs at destination
        · exact build_parentID destination
        · rw [← (Prod.mk.inj (Except.ok.inj destination)).1]
      subst inFolder
      cases located : locateSubject volume.records key srcName with
      | none =>
        rw [located] at returned
        exact unchanged returned
      | some subject =>
        obtain ⟨srcKey, srcRecord⟩ := subject
        obtain ⟨mem, kind, n, node⟩ := locateSubject_spec tree consistent.positive located
        rw [located] at returned
        dsimp only at returned
        split_ifs at returned with sameFolder renamed
        · -- the node stays in its folder
          have new : (!sameName srcName dstName) = true := renamed
          rw [new] at returned
          exact changed returned (consistent.relocate mem node textEncoding (fun _ => rfl) nofun
            fun other => absurd sameFolder other)
        · exact unchanged returned
        obtain ⟨found, rootNamed⟩ := regular key srcEncoding _ built located sameFolder
        cases destinationFolder : locateCatalogNode volume.records ⟨dstKey.parentID, []⟩ with
        | none =>
          rw [destinationFolder] at returned
          exact unchanged returned
        | some e =>
          obtain ⟨dstFolderKey, dstFolder⟩ := e
          rw [destinationFolder] at returned
          cases dstFolder with
          | file => exact unchanged returned
          | thread => exact unchanged returned
          | folder folderID valence folderEncoding =>
            dsimp only at returned
            obtain ⟨folderInside, kind', m, folderNode, way⟩ :=
              locate_spec tree consistent.positive destinationFolder
            cases folderNode
            have folderEntry := mem_skeleton folderInside
            -- only a root folder without a name is found in another way
            have isFolder : folderID = dstKey.parentID := by
              rcases way with place | place
              · have noName : dstFolderKey.place.name = none := congrArg Place.name place
                by_cases top : folderID = 2
                · subst top
                  have parent := tree.rootPlace _ _ folderEntry
                  rw [place] at parent
                  have absent := rootNamed parent
                  rw [← show dstKey.parentID = fsRtParID from parent] at absent
                  rw [(search_eq_some tree.distinct).mpr ⟨folderInside, place⟩] at absent
                  cases absent
                · obtain ⟨named, -⟩ := tree.parents _ _ _ folderEntry top
                  rw [noName] at named
                  cases named
              · exact (congrArg Place.parent place).symm
            subst isFolder
            split at returned
            · rename_i proper
              obtain ⟨notRoot, avoids⟩ :=
                properMove_avoids consistent mem node folderInside proper
              refine changed returned (consistent.relocate mem node textEncoding
                (fun same => absurd same sameFolder) (fun old => ?_)
                fun _ => ⟨notRoot, folderEntry, avoids⟩)
              have same : sameName srcName dstName = true := by simpa using old
              rw [if_neg (by simp [same])] at destination
              have name : CatalogKey.nodeName ⟨dstKey.parentID, key.nodeName⟩ = dstKey.nodeName :=
                congrArg CatalogKey.nodeName (Prod.mk.inj (Except.ok.inj destination)).1
              obtain ⟨subject, direct⟩ := isSome_iff_exists.mp (found same)
              rw [locateSubject, direct] at located
              cases located
              obtain ⟨-, kind', m, node', way⟩ := locate_spec tree consistent.positive direct
              rcases way with place | place
              · left
                rw [place, CatalogKey.place, CatalogKey.place, name]
              · right
                rw [← name]
                exact place_name_eq_none.mp (congrArg Place.name place)
            · exact unchanged returned
            · cases returned

end Darwin.Hfs.Catalog
