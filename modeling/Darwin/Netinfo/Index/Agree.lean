import Darwin.Netinfo.Index.Edit

/-!
# Lookups by an index agree with a scan

An index is made by a scan of the children of a directory, and patched by every request from then
on.  The patches go by the directory that a directory names as its parent, without a look at the
children of that one; the root names itself.  They go by the names and values of properties, as if
no name and no value were there twice.

## Main results

* `indexed_lookup_agrees` - after any run of calls that the index manager can follow, a lookup finds
  what a scan of the children would
* `lookup_finds_root` - a property of the root goes into the index of its children
-/

namespace Darwin.Netinfo.Index

open Option Handle
open Function (update update_of_ne update_self)
open Darwin.Lib

variable {s t : Store} {n n' : Handle} {r : Request} {user : Option Name} {w : Writes}
  {pick : ℕ → ℕ → Bool} {i c : ℕ} {key val : Name} {obj : Object} {held : List Holder}
  {calls : List ImCall}

/-- The index manager can follow a request where it holds an index: the directory is among the
children of its parent, no name is there twice, and no value that is taken away. -/
structure Handle.Follows (n : Handle) (r : Request) : Prop where
  clear : r.Clear n.store
  edited : ∀ obj, n.store.dir r.self.object = some obj → ∀ h ∈ n.held, h.index ≠ none →
    h.id = obj.parent → h.propname ∈ r.touched obj.props →
      n.store.Lists obj.parent r.self.object ∧ r.Followed h.propname obj.props
  removed : ∀ parentId selfId child, r = .destroy parentId selfId →
    n.store.dir selfId.object = some child → ∀ h ∈ n.held, h.index ≠ none →
      h.id = child.parent → (named h.propname child.props).length ≤ 1 ∧
        (valuesOf h.propname child.props).Nodup

/-- The condition for a call. -/
def Handle.Followable (n : Handle) : Call → Prop
  | .request _ _ _ r => n.Follows r
  | _ => True

/-- An index has the children of a directory by the values of a property. -/
structure Agrees (s : Store) (i : ℕ) (key : Name) (t : ITree Name) : Prop where
  ordered : t.Ordered ranstrcmp
  holds : ∀ v c, t.Holds v c ↔ c ∈ childrenOf s i ∧ v ∈ firstValues key (propsOf s c)

/-- All indexes that are held agree with the directories. -/
structure AllAgree (s : Store) (held : List Holder) : Prop where
  distinct : Distinct held
  agrees : ∀ h ∈ held, ∀ t, h.index = some t → Agrees s h.id h.propname t

/-! ## Requests -/

section Requests

variable {index : ITree Name} {child : Object} {picks : ℕ → Bool}

theorem Agrees.congr (agrees : Agrees s i key index) (children : childrenOf t i = childrenOf s i)
    (props : ∀ c ∈ childrenOf s i, propsOf t c = propsOf s c) : Agrees t i key index where
  ordered := agrees.ordered
  holds := by
    intro v c
    rw [agrees.holds, children]
    constructor
    · rintro ⟨mem, value⟩
      exact ⟨mem, by rwa [props c mem]⟩
    · rintro ⟨mem, value⟩
      exact ⟨mem, by rwa [props c mem] at value⟩

/-- A new child is entered with its values. -/
theorem Agrees.create {place : ℕ} (agrees : Agrees s child.parent key index)
    (fresh : ∀ i, child.id.object ∉ childrenOf s i)
    (children : childrenOf t = update (childrenOf s) child.parent
      (insertAt (childrenOf s child.parent) place child.id.object))
    (props : propsOf t = update (propsOf s) child.id.object child.props) :
    Agrees t child.parent key
      (indexInsertList index (firstValues key child.props) child.id.object) where
  ordered := (indexInsertList_spec agrees.ordered).1
  holds := by
    intro v c
    rw [(indexInsertList_spec agrees.ordered).2, agrees.holds, children, props,
      update_self, mem_insertAt]
    by_cases isChild : c = child.id.object
    · subst isChild
      rw [update_self]
      constructor
      · rintro (⟨mem, -⟩ | ⟨value, -⟩)
        · exact absurd mem (fresh _)
        · exact ⟨.inl rfl, value⟩
      · rintro ⟨-, value⟩
        exact .inr ⟨value, rfl⟩
    · rw [update_of_ne isChild, or_iff_left fun both => isChild both.2, or_iff_right isChild]

/-- A child that is removed is taken out with its values. -/
theorem Agrees.destroy (tree : s.Tree)
    (agrees : Agrees s child.parent key index) (there : s.dir child.id.object = some child)
    (listed : child.id.object ∈ childrenOf s child.parent)
    (children : childrenOf t = update (childrenOf s) child.parent
      ((childrenOf s child.parent).erase child.id.object))
    (props : ∀ c, c ≠ child.id.object → propsOf t c = propsOf s c)
    (single : (named key child.props).length ≤ 1) (nodup : (valuesOf key child.props).Nodup) :
    Agrees t child.parent key
      (indexDeleteList picks index child.id.object (valuesOf key child.props)) := by
  have values := valuesOf_of_single single
  have holds : ∀ v, index.Holds v child.id.object ↔ v ∈ valuesOf key child.props := by
    intro v
    rw [agrees.holds, propsOf_eq there, values, and_iff_right listed]
  have deleted := @indexDeleteList_spec index (valuesOf key child.props) child.id.object picks
    agrees.ordered nodup fun v mem => (holds v).mpr mem
  have nodup' : (childrenOf s child.parent).Nodup := by
    unfold childrenOf
    cases found : s.dir child.parent with
    | none => exact List.nodup_nil
    | some parent => exact tree.nodup _ parent found
  refine ⟨deleted.1, fun v c => ?_⟩
  rw [deleted.2, children, update_self, nodup'.mem_erase_iff]
  by_cases isChild : c = child.id.object
  · subst isChild
    rw [holds]
    constructor
    · rintro ⟨value, kept⟩
      exact absurd ⟨value, rfl⟩ kept
    · rintro ⟨⟨other, -⟩, -⟩
      exact absurd rfl other
  · rw [agrees.holds, props c isChild]
    constructor
    · rintro ⟨⟨mem, value⟩, -⟩
      exact ⟨⟨isChild, mem⟩, value⟩
    · rintro ⟨⟨-, mem⟩, value⟩
      exact ⟨⟨mem, value⟩, fun both => isChild both.2⟩

/-- The values of one child are patched. -/
theorem Agrees.edit {p : Patch} {props' : List Property}
    (agrees : Agrees s i key index) (listed : c ∈ childrenOf s i)
    (children : childrenOf t = childrenOf s)
    (props : propsOf t = update (propsOf s) c props')
    (leads : p.Leads (firstValues key (propsOf s c)) (firstValues key props')) :
    Agrees t i key (indexInsertList (indexDeleteList picks index c p.deletes) p.inserts c) := by
  have holds : ∀ v, index.Holds v c ↔ v ∈ firstValues key (propsOf s c) := by
    intro v
    rw [agrees.holds, and_iff_right listed]
  have deleted := @indexDeleteList_spec index p.deletes c picks agrees.ordered leads.nodup
    fun v mem => (holds v).mpr (leads.there v mem)
  have inserted := @indexInsertList_spec (indexDeleteList picks index c p.deletes) p.inserts c
    deleted.1
  refine ⟨inserted.1, fun v j => ?_⟩
  rw [inserted.2, deleted.2, children, props]
  by_cases isChild : j = c
  · subst isChild
    rw [update_self, leads.values, holds]
    simp only [and_true, listed, true_and]
  · rw [update_of_ne isChild, agrees.holds]
    simp only [isChild, and_false, not_false_eq_true, and_true, or_false]

/-- A change keeps the agreement. -/
theorem Change.allAgree (change : Change s t r calls) (tree : s.Tree) (all : AllAgree s held)
    (follows : Handle.Follows ⟨s, held⟩ r) : AllAgree t (calls.foldl (imCall pick) held) := by
  obtain ⟨distinct, agrees⟩ := all
  cases change with
  | kept children props =>
    refine ⟨distinct, fun h mem index found => (agrees h mem index found).congr ?_ (props h.id)⟩
    rw [children]
  | created child place parentId target request parent fresh children props =>
    obtain ⟨distinct', source⟩ := @imNewnode_from held child place distinct
    refine ⟨distinct', fun h' mem index found => ?_⟩
    obtain ⟨h, mem, same, away, here⟩ := source h' mem
    injection same with id propname
    rw [id, propname]
    by_cases isParent : h.id = child.parent
    · obtain ⟨patched, -⟩ := here isParent
      rw [found] at patched
      obtain ⟨index', before, rfl⟩ := map_eq_some_iff.mp patched.symm
      have agreed := agrees h mem index' before
      rw [isParent] at agreed ⊢
      exact agreed.create fresh children props
    · rw [(away isParent).1] at found
      apply (agrees h mem index found).congr
      · rw [children, update_of_ne isParent]
      intro c listed
      rw [props, update_of_ne]
      rintro rfl
      exact fresh h.id listed
  | destroyed child parentId request there listed only children props =>
    obtain ⟨distinct', source⟩ := @imRemove_from held child pick distinct
    refine ⟨distinct', fun h' mem index found => ?_⟩
    obtain ⟨h, mem, patches⟩ := source h' mem
    injection patches.key with id propname
    rw [id, propname]
    by_cases isParent : h.id = child.parent
    · obtain ⟨picks, patched⟩ := patches.index isParent
      rw [found] at patched
      obtain ⟨index', before, rfl⟩ := map_eq_some_iff.mp patched.symm
      have agreed := agrees h mem index' before
      obtain ⟨single, nodup⟩ := follows.removed parentId child.id child request there h mem
        (by rw [before]; exact some_ne_none _) isParent
      rw [isParent] at agreed ⊢
      exact agreed.destroy tree there listed children props single nodup
    · rw [(patches.elsewhere isParent).1] at found
      apply (agrees h mem index found).congr
      · rw [children, update_of_ne isParent]
      intro c listed'
      apply props
      rintro rfl
      exact isParent (only h.id listed')
  | modified obj obj' calls id parent self there only edit children props =>
    obtain ⟨g, patched, patches⟩ := @Edit.patches obj' r obj.props obj'.props calls held pick edit
      distinct
    rw [patched]
    refine ⟨distinct.map fun h => (patches h).key, fun h' mem' index found => ?_⟩
    obtain ⟨h, mem, rfl⟩ := List.mem_map.mp mem'
    obtain ⟨key, elsewhere, here, -⟩ := patches h
    rw [id, parent] at here
    rw [parent] at elsewhere
    injection key with id' propname
    rw [id', propname]
    by_cases isParent : h.id = obj.parent
    · obtain ⟨picks, after⟩ := here isParent
      rw [found] at after
      obtain ⟨index', before, rfl⟩ := map_eq_some_iff.mp after.symm
      have agreed := agrees h mem index' before
      have indexed : h.index ≠ none := by
        rw [before]
        exact some_ne_none _
      have condition := follows.edited obj (by rw [self]; exact there) h mem indexed isParent
      by_cases listed : obj.id.object ∈ childrenOf s h.id
      · apply agreed.edit listed children props
        rw [propsOf_eq there]
        exact edit.follows fun touched => (condition touched).2
      have untouched : h.propname ∉ r.touched obj.props := by
        intro touched
        obtain ⟨lists, -⟩ := condition touched
        rw [← isParent, self] at lists
        exact listed (lists_iff.mp lists)
      rw [(edit.untouched untouched).1]
      apply agreed.congr
      · rw [children]
      intro c listed'
      rw [props, update_of_ne]
      rintro rfl
      exact listed listed'
    · rw [(elsewhere isParent).1] at found
      apply (agrees h mem index found).congr
      · rw [children]
      intro c listed
      rw [props, update_of_ne]
      rintro rfl
      exact isParent (only h.id listed)

end Requests

/-! ## Runs -/

section Runs

/-- What holds of a handle throughout a run. -/
structure Handle.Good (n : Handle) : Prop where
  sound : Sound n.store
  tree : n.store.Tree
  all : AllAgree n.store n.held

theorem AllAgree.of_kept {held' : List Holder} (all : AllAgree s held)
    (source : From Kept held held') : AllAgree s held' where
  distinct := source.distinct
  agrees := by
    intro h' mem index found
    obtain ⟨h, mem', key, same, -⟩ := source.source h' mem
    injection key with id propname
    rw [id, propname]
    exact all.agrees h mem' index (same ▸ found)

theorem AllAgree.congr (all : AllAgree s held) (dir : t.dir = s.dir) : AllAgree t held where
  distinct := all.distinct
  agrees := by
    intro h mem index found
    apply (all.agrees h mem index found).congr
    · rw [childrenOf, childrenOf, dir]
    · intro c _
      rw [propsOf, propsOf, dir]

variable {index : ITree Name}

/-- A new index is kept. -/
theorem AllAgree.storeIndex (all : AllAgree s held)
    (agrees : Agrees s i key index) : AllAgree s (imStoreIndex held index i key) := by
  obtain ⟨distinct, source⟩ := @store_spec key i held (fun h => { h with index := some index })
    all.distinct fun h => rfl
  refine ⟨distinct, fun h' mem index' found => ?_⟩
  rcases source h' mem with old | ⟨h, rfl, same, -⟩
  · exact all.agrees h' old index' found
  obtain rfl : index = index' := some.inj found
  injection same with id propname
  rw [id, propname]
  exact agrees

theorem children_there (tree : s.Tree) (there : s.dir i = some obj) :
    ∀ c ∈ obj.children, ∃ child, s.dir c = some child := by
  intro c mem
  rw [← childrenOf_eq there] at mem
  obtain ⟨child, found, -⟩ := dir_of_mem tree mem
  exact ⟨child, found⟩

/-- The index that a scan of a whole directory makes. -/
theorem Indexed.agrees (there : s.dir i = some obj)
    (indexed : Indexed s key obj.children .nil index) : Agrees s i key index where
  ordered := indexed.ordered
  holds := by
    intro v c
    rw [indexed.holds, childrenOf_eq there, or_iff_right not_holds_nil]

/-- What a lookup finds. -/
def matching (s : Store) (i : ℕ) (key val : Name) : List ℕ :=
  (childrenOf s i).filter fun c => val ∈ firstValues key (propsOf s c)

theorem mem_matching : c ∈ matching s i key val ↔
    c ∈ childrenOf s i ∧ val ∈ firstValues key (propsOf s c) := by
  rw [matching, List.mem_filter, decide_eq_true_iff]

theorem matching_congr (reads : Reads s t) : matching t i key val = matching s i key val := by
  rw [matching, matching, reads.children_eq, reads.props_eq]

theorem nodup_childrenOf (tree : s.Tree) : (childrenOf s i).Nodup := by
  unfold childrenOf
  cases found : s.dir i with
  | none => exact List.nodup_nil
  | some parent => exact tree.nodup _ parent found

/-- What a lookup leaves: the store is only read, and an index may be kept. -/
structure Handle.Looks (n n' : Handle) (i : ℕ) (key : Name) : Prop where
  reads : Reads n.store n'.store
  held : n'.held = n.held ∨ n'.held = patch i key id n.held ∨ ∃ index,
    n'.held = imStoreIndex (patch i key id n.held) index i key ∧ Agrees n.store i key index

theorem Agrees.of_reads (agrees : Agrees t i key index) (reads : Reads s t) :
    Agrees s i key index :=
  agrees.congr (by rw [reads.children_eq]) fun c _ => by rw [reads.props_eq]

/-- A lookup answers from the index, or with the children that match. -/
theorem Handle.lookup_spec (sound : Sound n.store) (tree : n.store.Tree) :
    Looks n (n.lookup i key val).2 i key ∧ ∀ obj, n.store.dir i = some obj →
      (∃ index, (findholder n.held i key).bind (·.index) = some index ∧
        (n.lookup i key val).1 = answer (indexLookup ranstrcmp index val)) ∨
      (n.lookup i key val).1 = answer (matching n.store i key val) := by
  cases there : n.store.dir i with
  | none =>
    obtain ⟨s, looked, reads⟩ := objLookupRead_missing sound there
    rw [lookup, looked]
    exact ⟨⟨reads, .inl rfl⟩, nofun⟩
  | some obj =>
    obtain ⟨s, looked, reads⟩ := objLookupRead_eq sound there
    rw [← reads.dir] at there
    rw [lookup, looked]
    simp only [imHasIndexedDir]
    cases found : (findholder n.held i key).bind (·.index) with
    | some index => exact ⟨⟨reads, .inr (.inl rfl)⟩, fun _ _ => .inl ⟨index, rfl, rfl⟩⟩
    | none =>
      obtain ⟨scanned, res, makes⟩ := @scan_spec s key val obj.children ⟨[], pleaseIndex obj⟩
        reads.sound (children_there (reads.tree tree) there)
      have matched : (obj.children.filter fun c => val ∈ firstValues key (propsOf s c)) =
          matching n.store i key val := by
        rw [← matching_congr reads, matching, childrenOf_eq there]
      rw [List.nil_append, matched] at res
      generalize scan key val obj.children ⟨[], pleaseIndex obj⟩ s = result at *
      obtain ⟨⟨ids, index?⟩, s'⟩ := result
      obtain rfl : ids = matching n.store i key val := res
      cases index? with
      | none => exact ⟨⟨scanned.after reads, .inr (.inl rfl)⟩, fun _ _ => .inr rfl⟩
      | some made =>
        refine ⟨⟨scanned.after reads, .inr (.inr ⟨made, ?_, ?_⟩)⟩, fun _ _ => .inr rfl⟩
        · rw [id_of_dir there]
          rfl
        · exact ((makes.pleased rfl).agrees there).of_reads reads

theorem Handle.lookupread_spec (sound : Sound n.store) (tree : n.store.Tree) :
    Looks n (n.lookupread i key val).2 i key := by
  cases there : n.store.dir i with
  | none =>
    obtain ⟨s, looked, reads⟩ := objLookupRead_missing sound there
    rw [lookupread, looked]
    exact ⟨reads, .inl rfl⟩
  | some obj =>
    obtain ⟨s, looked, reads⟩ := objLookupRead_eq sound there
    rw [← reads.dir] at there
    rw [lookupread, looked]
    simp only [imHasIndexedDir]
    cases found : (findholder n.held i key).bind (·.index) with
    | some index =>
      dsimp only [map_some]
      cases indexLookup ranstrcmp index val with
      | nil => exact ⟨reads, .inr (.inl rfl)⟩
      | cons dir dirs =>
        have reads' := (@objLookupRead_reads s dir reads.sound).after reads
        dsimp only
        generalize s.objLookupRead dir = looked at *
        obtain ⟨r, s'⟩ := looked
        cases r with
        | error status => exact ⟨reads', .inr (.inl rfl)⟩
        | ok tmp => exact ⟨reads', .inr (.inl rfl)⟩
    | none =>
      obtain ⟨scanned, makes⟩ := @scanRead_spec s key val obj.children (none, pleaseIndex obj)
        reads.sound (children_there (reads.tree tree) there)
      generalize scanRead key val obj.children (none, pleaseIndex obj) s = result at *
      obtain ⟨⟨props, index?⟩, s'⟩ := result
      cases index? with
      | none => exact ⟨scanned.after reads, .inr (.inl rfl)⟩
      | some made =>
        refine ⟨scanned.after reads, .inr (.inr ⟨made, ?_, ?_⟩)⟩
        · rw [id_of_dir there]
          rfl
        · exact ((makes.pleased rfl).agrees there).of_reads reads

theorem Handle.Good.looks (good : n.Good) (looks : Looks n n' i key) : n'.Good := by
  obtain ⟨sound, tree, all⟩ := good
  have kept := all.of_kept (@patch_id_from key i n.held all.distinct)
  refine ⟨looks.reads.sound, looks.reads.tree tree, .congr ?_ looks.reads.dir⟩
  rcases looks.held with same | same | ⟨index, same, agrees⟩
  · exact same ▸ all
  · exact same ▸ kept
  · exact same ▸ kept.storeIndex agrees

/-- A lookup answers with the children that match, and leaves the handle good. -/
theorem Handle.Good.lookup (good : n.Good) : (n.lookup i key val).2.Good ∧
    (n.lookup i key val).2.store.dir = n.store.dir ∧
    ∀ obj, n.store.dir i = some obj → ∃ ids, (n.lookup i key val).1 = answer ids ∧ ids.Nodup ∧
      ∀ c, c ∈ ids ↔ c ∈ matching n.store i key val := by
  obtain ⟨looks, answers⟩ := @lookup_spec n i key val good.sound good.tree
  refine ⟨good.looks looks, looks.reads.dir, fun obj there => ?_⟩
  rcases answers obj there with ⟨index, found, same⟩ | same
  · obtain ⟨h, holder, indexed⟩ := bind_eq_some_iff.mp found
    obtain ⟨mem, key_eq⟩ := mem_of_findholder holder
    injection key_eq with id propname
    have agrees := good.all.agrees h mem index indexed
    rw [id, propname] at agrees
    refine ⟨_, same, nodup_indexLookup agrees.ordered, fun c => ?_⟩
    rw [mem_indexLookup agrees.ordered, agrees.holds, mem_matching]
  · exact ⟨_, same, (nodup_childrenOf good.tree).filter _, fun c => Iff.rfl⟩

/-- A listing that is kept changes no index. -/
theorem AllAgree.storeList {entries : List Entry} (all : AllAgree s held) :
    AllAgree s (imStoreList held i key entries) := by
  obtain ⟨distinct, source⟩ := @store_spec key i held (fun h => { h with entries := some entries })
    all.distinct fun h => rfl
  refine ⟨distinct, fun h' mem index found => ?_⟩
  rcases source h' mem with old | ⟨h, rfl, same, ⟨none, -⟩ | ⟨h₀, mem₀, key₀, index₀, -⟩⟩
  · exact all.agrees h' old index found
  · cases none.symm.trans found
  injection key₀ with id propname
  rw [id, propname]
  exact all.agrees h₀ mem₀ index (index₀ ▸ found)

/-- What a listing of a whole directory is. -/
def listOf (s : Store) (i : ℕ) (key : Name) : List Entry :=
  (childrenOf s i).map fun c => ⟨c, listedValues key (propsOf s c)⟩

/-- A listing is one that was kept, or is made and may be kept. -/
theorem Handle.listConst_spec (sound : Sound n.store) (tree : n.store.Tree) :
    Reads n.store (n.listConst i key).2.store ∧
      ((n.listConst i key).2.held = n.held ∨ (n.listConst i key).2.held = patch i key id n.held ∨
        (n.listConst i key).2.held =
          imStoreList (patch i key id n.held) i key (listOf n.store i key)) ∧
      ∀ obj, n.store.dir i = some obj → ∃ es, (n.listConst i key).1 = .ok es ∧
        ((findholder n.held i key).bind (·.entries) = some es ∨ es = listOf n.store i key) := by
  cases there : n.store.dir i with
  | none =>
    obtain ⟨s, looked, reads⟩ := objLookupRead_missing sound there
    rw [listConst, looked]
    exact ⟨reads, .inl rfl, nofun⟩
  | some obj =>
    obtain ⟨s, looked, reads⟩ := objLookupRead_eq sound there
    rw [← reads.dir] at there
    rw [listConst, looked]
    simp only [imHasSavedList]
    cases found : (findholder n.held i key).bind (·.entries) with
    | some es => exact ⟨reads, .inr (.inl rfl), fun _ _ => ⟨es, rfl, .inl rfl⟩⟩
    | none =>
      obtain ⟨listing_reads, made⟩ := @listing_spec s key obj.children reads.sound
        (children_there (reads.tree tree) there)
      replace made : (listing key obj.children s).1 = listOf n.store i key := by
        rw [made, listOf, ← reads.children_eq, ← reads.props_eq, childrenOf_eq there]
      dsimp only
      rw [id_of_dir there]
      refine ⟨listing_reads.after reads, .inr ?_, fun _ _ => ⟨_, rfl, .inr made⟩⟩
      split
      · exact .inr (made ▸ rfl)
      · exact .inl rfl

theorem Handle.Good.listConst (good : n.Good) : (n.listConst i key).2.Good := by
  obtain ⟨sound, tree, all⟩ := good
  obtain ⟨reads, held, -⟩ := @listConst_spec n i key sound tree
  have kept := all.of_kept (@patch_id_from key i n.held all.distinct)
  refine ⟨reads.sound, reads.tree tree, .congr ?_ reads.dir⟩
  rcases held with same | same | same
  · exact same ▸ all
  · exact same ▸ kept
  · exact same ▸ kept.storeList

theorem forget_sound {drops : ℕ → Bool} (sound : Sound s) :
    Sound { s with cache := fun i => if drops i then none else s.cache i } where
  sized := sound.sized
  bounded := sound.bounded
  own := sound.own
  coherent := by
    intro i obj cached
    dsimp only at cached
    split at cached
    · cases cached
    · exact sound.coherent i obj cached
  known := sound.known

theorem request_eq : (n.request user w pick r).2 = ⟨(n.store.perform user w r).2,
    (callsOf (n.store.perform user w r).1).foldl (imCall pick) n.held⟩ := by
  unfold request
  generalize n.store.perform user w r = result
  obtain ⟨result?, s⟩ := result
  cases result? with
  | error status => rfl
  | ok reply => rfl

/-- One call. -/
theorem Handle.Good.next {call : Call} (good : n.Good) (followable : n.Followable call)
    (taken : n.next call = some n') : n'.Good := by
  cases call with
  | request user w pick r =>
    cases taken
    obtain ⟨keeps, tree, change⟩ := @request_change n.store w user r good.sound good.tree
      followable.clear
    rw [request_eq]
    exact ⟨keeps.sound, tree, change.allAgree good.tree good.all followable⟩
  | lookup id pname pval =>
    cases taken
    exact good.lookup.1
  | lookupread id pname pval =>
    cases taken
    exact good.looks (lookupread_spec good.sound good.tree)
  | listConst id pname =>
    cases taken
    exact good.listConst
  | forget drops =>
    cases taken
    have tree : ({ n.store with
        cache := fun i => if drops i then none else n.store.cache i } : Store).Tree :=
      good.tree.of_dir rfl fun _ old => old
    exact ⟨forget_sound good.sound, tree,
      (good.all.of_kept (imForget_from good.all.distinct)).congr rfl⟩

theorem Handle.Good.open (sound : Sound s) (tree : s.Tree) : (Handle.open s).Good :=
  ⟨sound, tree, List.nodup_nil, fun _ mem => absurd mem List.not_mem_nil⟩

/-- After any run of calls that the index manager can follow, on a database that is a tree: a lookup
of a directory finds the children whose first property of the name has the value, and answers that
there is no directory if there are none. -/
theorem indexed_lookup_agrees (sound : Sound s) (tree : s.Tree)
    (run : Run Handle.next Handle.Followable (Handle.open s) n)
    (there : n.store.dir i = some obj) (key val : Name) :
    ∃ ids, (n.lookup i key val).1 = answer ids ∧ ids.Nodup ∧
      ∀ c, c ∈ ids ↔ n.store.Lists i c ∧ ∃ child prop, n.store.dir c = some child ∧
        propFind child.props key = some prop ∧ val ∈ prop.values := by
  have good : n.Good := run.invariant (Good.open sound tree)
    fun good followable taken => good.next followable taken
  obtain ⟨ids, answered, nodup, found⟩ := good.lookup.2.2 obj there
  refine ⟨ids, answered, nodup, fun c => ?_⟩
  rw [found, mem_matching, lists_iff]
  apply and_congr_right
  intro listed
  obtain ⟨child, child_there, -⟩ := dir_of_mem good.tree listed
  rw [propsOf_eq child_there, firstValues]
  constructor
  · intro value
    cases first : propFind child.props key with
    | none =>
      rw [first] at value
      cases value
    | some prop =>
      rw [first] at value
      exact ⟨child, prop, child_there, first, value⟩
  · rintro ⟨child', prop, there', first, value⟩
    cases child_there.symm.trans there'
    rw [first]
    exact value

/-! ### A root with many children -/

/-- A directory with the id of its place, that nobody has written to since. -/
def wideDir (i : ℕ) : Object where
  id := ⟨i, 1⟩
  parent := 0
  children := if i = 0 then (List.range 32).map (· + 1) else []
  props := []

/-- A database of a root and 32 directories in it. -/
def wide : Store where
  blocksize := 512
  highestId := 33
  instances := fun _ => 1
  records := fun i => .decoded (wideDir i)
  cache := fun _ => none
  commits := fun _ => 0
  leaked := []

theorem dir_wide : wide.dir i = if i < 33 then some (wideDir i) else none := by
  by_cases below : i < 33
  · rw [if_pos below]
    exact dir_eq_some_iff.mpr ⟨below, rfl, rfl⟩
  rw [if_neg below]
  cases found : wide.dir i with
  | none => rfl
  | some obj => exact absurd (dir_eq_some_iff.mp found).1 below

theorem sound_wide : Sound wide where
  sized := .inr rfl
  bounded := by decide
  own := fun i _ => .inl rfl
  coherent := fun i obj cached => by cases cached
  known := by
    intro i obj there
    rw [dir_wide] at there
    split at there
    · cases there
      exact .inl rfl
    · cases there

theorem lists_wide : wide.Lists i c ↔ i = 0 ∧ 0 < c ∧ c < 33 := by
  rw [lists_iff, childrenOf, dir_wide]
  constructor
  · intro mem
    split at mem
    · by_cases root : i = 0
      · subst root
        obtain ⟨k, less, rfl⟩ := List.mem_map.mp mem
        have := List.mem_range.mp less
        omega
      · simp [wideDir, root] at mem
    · cases mem
  · rintro ⟨rfl, pos, less⟩
    exact List.mem_map.mpr ⟨c - 1, List.mem_range.mpr (by omega), by omega⟩

theorem tree_wide : wide.Tree := by
  constructor
  case child =>
    intro i c listed
    obtain ⟨rfl, -, less⟩ := lists_wide.mp listed
    exact ⟨wideDir c, by rw [dir_wide, if_pos less], rfl⟩
  case nodup =>
    intro i obj there
    rw [dir_wide] at there
    split at there
    · cases there
      unfold wideDir
      dsimp only
      split
      · decide
      · exact List.nodup_nil
    · cases there
  case acyclic =>
    intro i below
    obtain ⟨c, listed, rest⟩ := Relation.TransGen.head'_iff.mp below
    obtain ⟨rfl, pos, -⟩ := lists_wide.mp listed
    rcases Relation.ReflTransGen.cases_tail rest with same | ⟨d, -, last⟩
    · omega
    · exact absurd (lists_wide.mp last).2.1 (lt_irrefl 0)
  case rooted =>
    intro c child there
    rw [dir_wide] at there
    split at there
    case isFalse => cases there
    rename_i below
    refine ⟨0, .inl rfl, fun k listed => lt_irrefl 0 (lists_wide.mp listed).2.1, ?_⟩
    rcases Nat.eq_zero_or_pos c with rfl | pos
    · exact .refl
    · exact .single (lists_wide.mpr ⟨rfl, pos, below⟩)

/-- A lookup makes an index, and a child of the root is given the value. -/
def childCalls : List Call :=
  [.lookup 0 [107] [118], .request (some accessUserSuper) Writes.all (fun _ _ => true)
      (.createprop ⟨1, 1⟩ ⟨[107], [[118]]⟩ 0)]

/-- A lookup makes an index, and the root itself is given the value. -/
def rootCalls : List Call :=
  [.lookup 0 [107] [118], .request (some accessUserSuper) Writes.all (fun _ _ => true)
      (.createprop ⟨0, 1⟩ ⟨[107], [[118]]⟩ 0)]

/-- The child is found by the index that was made before. -/
theorem indexed_lookup_agrees_wide : ∃ n,
    Run Handle.next Handle.Followable (Handle.open wide) n ∧
      n.held.any (·.index.isSome) = true ∧ (n.lookup 0 [107] [118]).1 = .ok [1] ∧
      n.store.Lists 0 1 ∧ ∃ child prop, n.store.dir 1 = some child ∧
        propFind child.props [107] = some prop ∧ [118] ∈ prop.values := by
  have computed : (runActions Handle.next (Handle.open wide) childCalls).any (fun n =>
      n.held.any (·.index.isSome) && decide ((n.lookup 0 [107] [118]).1.toOption = some [1]) &&
        (n.store.dir 0).isSome) = true := by decide +kernel
  obtain ⟨n₁, looked, dir⟩ : ∃ n₁,
      (Handle.open wide).next (.lookup 0 [107] [118]) = some n₁ ∧ n₁.store.dir = wide.dir :=
    ⟨_, rfl, (@Handle.Good.lookup (Handle.open wide) 0 [107] [118]
      (.open sound_wide tree_wide)).2.1⟩
  have follows : n₁.Follows (.createprop ⟨1, 1⟩ ⟨[107], [[118]]⟩ 0) := by
    constructor
    case clear => trivial
    case edited =>
      intro obj there h _ _ _ _
      rw [dir, dir_wide] at there
      cases there
      refine ⟨?_, Nat.zero_le _, fun _ => rfl, trivial⟩
      rw [Store.Lists, dir]
      exact lists_wide.mpr ⟨rfl, by decide, by decide⟩
    case removed => exact fun _ _ _ destroy => by cases destroy
  have run : Run Handle.next Handle.Followable (Handle.open wide)
      (n₁.request (some accessUserSuper) Writes.all (fun _ _ => true)
        (.createprop ⟨1, 1⟩ ⟨[107], [[118]]⟩ 0)).2 := by
    have first : Run Handle.next Handle.Followable (Handle.open wide) n₁ :=
      .step (a := .lookup 0 [107] [118]) .start trivial looked
    have followable : n₁.Followable (.request (some accessUserSuper) Writes.all (fun _ _ => true)
      (.createprop ⟨1, 1⟩ ⟨[107], [[118]]⟩ 0)) := follows
    exact first.step followable rfl
  have reached : runActions Handle.next (Handle.open wide) childCalls =
      some (n₁.request (some accessUserSuper) Writes.all (fun _ _ => true)
        (.createprop ⟨1, 1⟩ ⟨[107], [[118]]⟩ 0)).2 := by
    rw [childCalls, runActions, looked]
    rfl
  rw [reached, any_some] at computed
  generalize (n₁.request (some accessUserSuper) Writes.all (fun _ _ => true)
    (.createprop ⟨1, 1⟩ ⟨[107], [[118]]⟩ 0)).2 = n at *
  simp only [Bool.and_eq_true, decide_eq_true_iff] at computed
  obtain ⟨⟨indexed, found⟩, isRoot⟩ := computed
  obtain ⟨root, there⟩ := isSome_iff_exists.mp isRoot
  obtain ⟨ids, answered, -, exactly⟩ :=
    indexed_lookup_agrees sound_wide tree_wide run there [107] [118]
  have answer_eq : answer ids = .ok [1] := by
    rw [← answered]
    cases result : (n.lookup 0 [107] [118]).1 with
    | error status =>
      rw [result] at found
      cases found
    | ok ids' =>
      rw [result] at found
      rw [some.inj found]
  have ids_eq : ids = [1] := by
    unfold answer at answer_eq
    split at answer_eq
    · cases answer_eq
    · injection answer_eq
  obtain ⟨listed, child, prop, match_⟩ := (exactly 1).mp (by rw [ids_eq]; exact List.mem_cons_self)
  exact ⟨n, run, indexed, answered.trans answer_eq, listed, child, prop, match_⟩

/-- The root is found among its own children. -/
theorem lookup_finds_root : ∃ s n, Sound s ∧ s.Tree ∧
    Run Handle.next (fun _ _ => True) (Handle.open s) n ∧
      (n.lookup 0 [107] [118]).1 = .ok [0] ∧ ¬ n.store.Lists 0 0 := by
  have computed : (runActions Handle.next (Handle.open wide) rootCalls).any (fun n =>
      decide ((n.lookup 0 [107] [118]).1.toOption = some [0]) &&
        !decide (n.store.Lists 0 0)) = true := by decide +kernel
  cases taken : runActions Handle.next (Handle.open wide) rootCalls with
  | none =>
    rw [taken] at computed
    cases computed
  | some n =>
    rw [taken] at computed
    simp only [any_some, Bool.and_eq_true, Bool.not_eq_true', decide_eq_true_iff,
      decide_eq_false_iff_not] at computed
    refine ⟨wide, n, sound_wide, tree_wide, run_of_runActions taken, ?_, computed.2⟩
    cases found : (n.lookup 0 [107] [118]).1 with
    | error status =>
      rw [found] at computed
      cases computed.1
    | ok ids =>
      rw [found] at computed
      rw [some.inj computed.1]

end Runs

end Darwin.Netinfo.Index
