import Darwin.Netinfo.Index.Agree

/-!
# Cached listings agree with fresh ones

A listing has an entry for each child of a directory.  It is patched by every request from then on:
a new child is entered whatever its properties are, but one that is removed is looked for by its
properties, so that the entry of a child without the property stays.  An entry that has no names,
because the property had no value when the listing was made, is passed over when the property is
given its first one.

## Main results

* `cached_listing_agrees` - after any run of calls that the index manager can follow, a listing is
  what a fresh one would be
* `removed_child_listed` - a child without the property is listed after it was removed
-/

namespace Darwin.Netinfo.Index

open List Handle
open Function (update update_of_ne update_self)
open Darwin.Lib

variable {s t : Store} {n n' : Handle} {r : Request} {user : Option Name} {w : Writes}
  {pick : ℕ → ℕ → Bool} {i c which place : ℕ} {key : Name} {obj : Object} {held : List Holder}
  {calls : List ImCall} {entries es : List Entry} {old new props before after : List Property}
  {prop : Property} {p : Patch} {vals vals' : List Name}

/-! ## Lists of entries -/

section Updates

variable {F G : Option (List Name) → Option (List Name)}

theorem updateEntry_id : updateEntry id which es = es := by
  induction es with
  | nil => rfl
  | cons e es ih =>
    rw [updateEntry]
    split
    · rfl
    · rw [ih]

theorem updateEntry_comp :
    updateEntry F which (updateEntry G which es) = updateEntry (F ∘ G) which es := by
  induction es with
  | nil => rfl
  | cons e es ih =>
    rw [updateEntry, updateEntry]
    by_cases same : e.id = which
    · rw [if_pos same, if_pos same, updateEntry, if_pos same]
      rfl
    · rw [if_neg same, if_neg same, updateEntry, if_neg same, ih]

theorem updateEntry_of_absent (absent : which ∉ es.map Entry.id) : updateEntry F which es = es := by
  induction es with
  | nil => rfl
  | cons e es ih =>
    rw [map_cons, mem_cons, not_or] at absent
    rw [updateEntry, if_neg (Ne.symm absent.1), ih absent.2]

theorem updateEntry_eq_map (nodup : (es.map Entry.id).Nodup) : updateEntry F which es =
    es.map fun e => if e.id = which then { e with names := F e.names } else e := by
  induction es with
  | nil => rfl
  | cons e es ih =>
    obtain ⟨fresh, nodup'⟩ := nodup_cons.mp nodup
    rw [updateEntry, map_cons]
    by_cases same : e.id = which
    · rw [if_pos same, if_pos same, ← ih nodup', updateEntry_of_absent]
      rw [← same]
      exact fresh
    · rw [if_neg same, if_neg same, ih nodup']

theorem any_id_iff : es.any (·.id = which) = true ↔ which ∈ es.map Entry.id := by
  rw [any_eq_true, mem_map]
  simp only [decide_eq_true_eq]

theorem listInsert_eq_update :
    listInsert es vals which false place = updateEntry (fun _ => some vals) which es := by
  unfold listInsert
  by_cases there : es.any (·.id = which) = true
  · rw [if_pos there]
  · rw [if_neg there, if_neg (by decide), updateEntry_of_absent]
    exact fun mem => there (any_id_iff.mpr mem)

theorem map_insertAt {α β : Type*} {f : α → β} {l : List α} {a : α} :
    (insertAt l place a).map f = insertAt (l.map f) place (f a) := by
  rw [insertAt, insertAt, map_append, map_cons, map_take, map_drop]

theorem map_id_eraseP : (es.eraseP (·.id = which)).map Entry.id = (es.map Entry.id).erase which := by
  induction es with
  | nil => rfl
  | cons e es ih =>
    rw [map_cons]
    by_cases same : e.id = which
    · have first : (e :: es).eraseP (·.id = which) = es :=
        eraseP_cons_of_pos (decide_eq_true same)
      rw [first, same, erase_cons_head]
    · have first : (e :: es).eraseP (·.id = which) = e :: es.eraseP (·.id = which) :=
        eraseP_cons_of_neg (by simpa using same)
      rw [first, erase_cons_tail (by simpa using same), map_cons, ih]

theorem eraseP_of_absent (absent : which ∉ es.map Entry.id) : es.eraseP (·.id = which) = es := by
  apply eraseP_of_forall_not
  intro e mem same
  exact absent (mem_map.mpr ⟨e, mem, of_decide_eq_true same⟩)

/-- However often a child is deleted from the entries, it is gone after the first time. -/
theorem foldl_listDelete {l : List Property} (nodup : (es.map Entry.id).Nodup) (some : l ≠ []) :
    l.foldl (fun entries _ => listDelete entries which true) es = es.eraseP (·.id = which) := by
  have gone : which ∉ (es.eraseP (·.id = which)).map Entry.id := by
    rw [map_id_eraseP]
    exact fun mem => (nodup.mem_erase_iff.mp mem).1 rfl
  have rest : ∀ l : List Property, l.foldl (fun entries _ => listDelete entries which true)
      (es.eraseP (·.id = which)) = es.eraseP (·.id = which) := by
    intro l
    induction l with
    | nil => rfl
    | cons prop l ih =>
      rw [foldl_cons, listDelete, if_pos rfl, eraseP_of_absent gone]
      exact ih
  cases l with
  | nil => exact absurd rfl some
  | cons prop l =>
    rw [foldl_cons, listDelete, if_pos rfl]
    exact rest l

end Updates

/-! ## The names of an entry -/

section Names

/-- The values that a listing gives for a directory, none for a null pointer. -/
def listed (key : Name) (props : List Property) : List Name := (listedValues key props).getD []

theorem listedValues_eq :
    listedValues key props = ((named key props).find? (·.values ≠ [])).map (·.values) := by
  rw [listedValues, named, List.find?_filter]
  simp only [ne_eq, Bool.decide_and, Bool.decide_eq_true]

theorem listed_congr (same : named key new = named key old) : listed key new = listed key old := by
  rw [listed, listed, listedValues_eq, listedValues_eq, same]

/-- Where there is one property of the name at most, a listing gives the values of the first. -/
theorem listed_of_single (single : (named key props).length ≤ 1) :
    listed key props = firstValues key props := by
  rw [listed, listedValues_eq, firstValues_eq]
  cases found : named key props with
  | nil => rfl
  | cons prop rest =>
    rw [found, length_cons] at single
    have none : rest = [] := eq_nil_of_length_eq_zero (by omega)
    subst none
    by_cases empty : prop.values = []
    · rw [List.find?_cons_of_neg (by simpa using empty)]
      exact empty.symm
    · rw [List.find?_cons_of_pos (by simpa using empty)]
      rfl

/-- A patch leads from the listed names to others. -/
def Patch.Lists (p : Patch) (which : ℕ) (fits : Option (List Name) → Prop)
    (old new : List Name) : Prop :=
  ∃ F, (∀ es, p.entries es = updateEntry F which es) ∧
    ∀ names, fits names → names.getD [] = old → (F names).getD [] = new

variable {fits : Option (List Name) → Prop}

theorem Patch.Lists.still : Patch.Lists ⟨[], [], id⟩ which fits vals vals :=
  ⟨id, fun _ => updateEntry_id.symm, fun _ _ same => same⟩

/-- The names are replaced, or taken away. -/
theorem Patch.Lists.whole (names : Option (List Name))
    (entries : ∀ es, p.entries es = updateEntry (fun _ => names) which es)
    (new : names.getD [] = vals') : p.Lists which fits vals vals' :=
  ⟨fun _ => names, entries, fun _ _ _ => new⟩

end Names

/-! ## Edits -/

section Edits

/-- The entry of the directory fits a request: it has names, if one more is to be put in. -/
def Fits (r : Request) (key : Name) (old : List Property) (names : Option (List Name)) : Prop :=
  ∀ id i name place, r = .createname id i name place → key ∈ r.touched old → names ≠ none

variable {fits : Option (List Name) → Prop}

theorem listed_of_named_nil (none : named key props = []) : listed key props = [] := by
  rw [listed, listedValues_eq, none]
  rfl

theorem listed_mid (none : named key before = []) (none' : named key after = [])
    (same : prop.name = key) : listed key (before ++ prop :: after) = prop.values := by
  rw [listed_of_single (by simp [named_mid, none, none', same]), firstValues_mid none same]

/-- The values of one property are changed. -/
theorem Patch.Lists.replace (single : (named key (before ++ prop :: after)).length ≤ 1)
    (same : prop.name = key) (lists : p.Lists which fits prop.values vals) :
    p.Lists which fits (listed key (before ++ prop :: after))
      (listed key (before ++ { prop with values := vals } :: after)) := by
  obtain ⟨none, none'⟩ := named_of_single single same
  have changed : listed key (before ++ { prop with values := vals } :: after) = vals :=
    listed_mid none none' same
  rw [listed_mid none none' same, changed]
  exact lists

theorem insertAt_eraseIdx {l : List Name} {j : ℕ} {saved name : Name}
    (there : l[j]? = some saved) : insertAt (l.eraseIdx j) j name = l.set j name := by
  obtain ⟨first, last, rfl, rfl⟩ := split_at there
  rw [eraseIdx_split, set_split, insertAt, take_left, drop_left]

theorem eq_nil_of_cons {rest : List Property} (found : named key props = prop :: rest)
    (single : (named key props).length ≤ 1) : rest = [] := by
  rw [found, length_cons] at single
  exact eq_nil_of_length_eq_zero (by omega)

theorem firstValues_of_cons {rest : List Property} (found : named key props = prop :: rest) :
    firstValues key props = prop.values := by
  rw [firstValues_eq, found]
  rfl

/-- `ni_write` takes away the names of the old property and gives those of the new one. -/
theorem write_lists (single : (named key old).length ≤ 1) (single' : (named key new).length ≤ 1) :
    ((callPatch key (.destroyAll obj old)).andThen (callPatch key (.createAll obj new))).Lists
      obj.id.object fits (firstValues key old) (firstValues key new) := by
  cases made : named key new with
  | nil =>
    rw [firstValues_of_named_nil made]
    cases gone : named key old with
    | nil =>
      rw [firstValues_of_named_nil gone]
      rw [callPatch, callPatch, valuesOf, valuesOf, gone, made]
      exact .still
    | cons prop' rest' =>
      obtain rfl := eq_nil_of_cons gone single
      refine .whole none (fun es => ?_) rfl
      simp only [Patch.andThen, callPatch, gone, made]
      rfl
  | cons prop rest =>
    obtain rfl := eq_nil_of_cons made single'
    refine .whole (some prop.values) (fun es => ?_) (firstValues_of_cons made).symm
    cases gone : named key old with
    | nil =>
      simp only [Patch.andThen, callPatch, gone, made]
      exact listInsert_eq_update
    | cons prop' rest' =>
      obtain rfl := eq_nil_of_cons gone single
      simp only [Patch.andThen, callPatch, gone, made]
      refine listInsert_eq_update.trans ?_
      exact updateEntry_comp

/-- The entries follow an edit. -/
theorem Edit.lists (edit : Edit obj r old new calls)
    (followed : key ∈ r.touched old → (named key old).length ≤ 1 ∧ r.NamesOnce key old) :
    (callsPatch key calls).Lists obj.id.object (Fits r key old) (listed key old)
      (listed key new) := by
  by_cases touched : key ∈ r.touched old
  case neg =>
    obtain ⟨told, same⟩ := edit.untouched touched
    rw [told, listed_congr same]
    exact .still
  obtain ⟨single, names⟩ := followed touched
  cases edit with
  | write id =>
    rw [callsPatch_pair, listed_of_single single, listed_of_single names]
    exact write_lists single names
  | createprop id place before after prop =>
    have same := (mem_singleton.mp touched).symm
    have none := names same
    rw [named_append, append_eq_nil_iff] at none
    rw [callsPatch_singleton, callPatch, if_pos same, listed_mid none.1 none.2 same]
    exact .whole (some prop.values) (fun es => listInsert_eq_update) rfl
  | destroyprop id before after prop =>
    have same := mem_touched.mp touched
    obtain ⟨none, none'⟩ := named_of_single single same
    have nothing : named key (before ++ after) = [] := by rw [named_append, none, none']; rfl
    rw [callsPatch_singleton, callPatch, if_pos same, listed_of_named_nil nothing]
    exact .whole Option.none (fun es => rfl) rfl
  | renameprop id before after prop name =>
    rw [callsPatch_pair, callPatch, callPatch]
    by_cases same' : name = key
    · -- the new name is that of the listing: the entry gets the values
      have none := names same'
      rw [eraseIdx_split, named_append, append_eq_nil_iff] at none
      have mid : listed key (before ++ { prop with name := name } :: after) = prop.values :=
        listed_mid none.1 none.2 same'
      rw [if_pos same', mid]
      refine .whole (some prop.values) (fun es => ?_) rfl
      by_cases same : prop.name = key
      · rw [if_pos same]
        exact listInsert_eq_update.trans updateEntry_comp
      · rw [if_neg same]
        exact listInsert_eq_update
    · have same : prop.name = key := by_contra fun other => same' (renamed touched other)
      obtain ⟨none, none'⟩ := named_of_single single same
      have nothing : named key (before ++ { prop with name := name } :: after) = [] := by
        rw [named_skip same', named_append, none, none']
        rfl
      rw [if_pos same, if_neg same', listed_of_named_nil nothing]
      exact .whole Option.none (fun es => rfl) rfl
  | writeprop id before after prop values =>
    have same := mem_touched.mp touched
    refine .replace single same ?_
    rw [callsPatch_pair, callPatch, callPatch, if_pos same, if_pos same]
    exact .whole (some values) (fun es => listInsert_eq_update.trans updateEntry_comp) rfl
  | createname id before after prop name place =>
    have same := mem_touched.mp touched
    refine .replace single same ?_
    rw [callsPatch_singleton, callPatch, if_pos same]
    refine ⟨fun names => names.map fun nl => insertAt nl place name, fun es => rfl,
      fun names fits old => ?_⟩
    -- an entry without names is passed over
    cases names with
    | none => exact absurd rfl (fits id before.length name place rfl touched)
    | some nl =>
      rw [← old]
      rfl
  | destroyname id before after prop nameIndex saved there =>
    have same := mem_touched.mp touched
    refine .replace single same ?_
    rw [callsPatch_singleton, callPatch, if_pos same]
    refine ⟨fun names => names.map (·.eraseIdx nameIndex), fun es => rfl, fun names _ old => ?_⟩
    rw [← old]
    cases names with
    | none => rfl
    | some nl => rfl
  | writename id before after prop nameIndex name saved there =>
    have same := mem_touched.mp touched
    refine .replace single same ?_
    rw [callsPatch_pair, callPatch, callPatch, if_pos same, if_pos same]
    refine ⟨(fun names => names.map fun nl => insertAt nl nameIndex name) ∘
      fun names => names.map (·.eraseIdx nameIndex), fun es => ?_, fun names _ old => ?_⟩
    · exact updateEntry_comp
    rw [← old] at there ⊢
    cases names with
    | none => cases there
    | some nl => exact insertAt_eraseIdx there

end Edits

/-! ## Requests -/

section Requests

/-- The index manager can keep a listing up to date: no name is there twice; an entry that is given
one more name has names; a child that is removed has the property. -/
structure Handle.Tracks (n : Handle) (r : Request) : Prop where
  clear : r.Clear n.store
  created : ∀ parentId props place target, r = .create parentId props place target →
    ∀ h ∈ n.held, h.entries ≠ none → h.id = parentId.object →
      listed h.propname props = firstValues h.propname props
  edited : ∀ obj, n.store.dir r.self.object = some obj → ∀ h ∈ n.held, ∀ es,
    h.entries = some es → h.id = obj.parent → n.store.Lists obj.parent r.self.object →
      h.propname ∈ r.touched obj.props →
        (named h.propname obj.props).length ≤ 1 ∧ r.NamesOnce h.propname obj.props ∧
          ∀ e ∈ es, e.id = r.self.object → Fits r h.propname obj.props e.names
  removed : ∀ parentId selfId child, r = .destroy parentId selfId →
    n.store.dir selfId.object = some child → ∀ h ∈ n.held, h.entries ≠ none →
      h.id = child.parent → named h.propname child.props ≠ []

/-- The condition for a call. -/
def Handle.Trackable (n : Handle) : Call → Prop
  | .request _ _ _ r => n.Tracks r
  | _ => True

/-- The entries are those of the children of a directory. -/
structure Current (s : Store) (i : ℕ) (key : Name) (es : List Entry) : Prop where
  ids : es.map Entry.id = childrenOf s i
  names : ∀ e ∈ es, e.names.getD [] = listed key (propsOf s e.id)

/-- All listings that are held are those of the directories. -/
structure AllCurrent (s : Store) (held : List Holder) : Prop where
  distinct : Distinct held
  current : ∀ h ∈ held, ∀ es, h.entries = some es → Current s h.id h.propname es

theorem Current.congr (current : Current s i key es) (children : childrenOf t i = childrenOf s i)
    (props : ∀ c ∈ childrenOf s i, propsOf t c = propsOf s c) : Current t i key es where
  ids := current.ids.trans children.symm
  names := by
    intro e mem
    rw [current.names e mem, props]
    rw [← current.ids]
    exact mem_map_of_mem mem

/-- A new child has an entry. -/
theorem Current.create {child : Object} (current : Current s child.parent key es)
    (fresh : ∀ i, child.id.object ∉ childrenOf s i)
    (children : childrenOf t = update (childrenOf s) child.parent
      (insertAt (childrenOf s child.parent) place child.id.object))
    (props : propsOf t = update (propsOf s) child.id.object child.props)
    (first : listed key child.props = firstValues key child.props) :
    Current t child.parent key
      (listInsert es (firstValues key child.props) child.id.object true place) := by
  have absent : ¬ es.any (·.id = child.id.object) = true := by
    rw [any_id_iff, current.ids]
    exact fresh _
  rw [listInsert, if_neg absent, if_pos rfl]
  constructor
  case ids => rw [map_insertAt, current.ids, children, update_self]
  case names =>
    intro e mem
    rw [props]
    rcases mem_insertAt.mp mem with rfl | old
    · rw [update_self]
      exact first.symm
    rw [update_of_ne, current.names e old]
    rintro same
    apply fresh child.parent
    rw [← current.ids, ← same]
    exact mem_map_of_mem old

/-- A child that is removed has no entry. -/
theorem Current.destroy {child : Object} (nodup : (childrenOf s child.parent).Nodup)
    (current : Current s child.parent key es)
    (children : childrenOf t = update (childrenOf s) child.parent
      ((childrenOf s child.parent).erase child.id.object))
    (props : ∀ c, c ≠ child.id.object → propsOf t c = propsOf s c)
    (has : named key child.props ≠ []) :
    Current t child.parent key ((named key child.props).foldl
      (fun entries _ => listDelete entries child.id.object true) es) := by
  have unique : (es.map Entry.id).Nodup := by
    rw [current.ids]
    exact nodup
  rw [foldl_listDelete unique has]
  have ids := @map_id_eraseP child.id.object es
  constructor
  case ids => rw [ids, current.ids, children, update_self]
  case names =>
    intro e mem
    have other : e.id ≠ child.id.object := by
      have kept : e.id ∈ (es.map Entry.id).erase child.id.object := by
        rw [← ids]
        exact mem_map_of_mem mem
      exact (unique.mem_erase_iff.mp kept).1
    rw [props _ other, current.names e (mem_of_mem_eraseP mem)]

/-- The names of one child are patched. -/
theorem Current.edit {props' : List Property} {fits : Option (List Name) → Prop}
    (nodup : (childrenOf s i).Nodup) (current : Current s i key es)
    (children : childrenOf t = childrenOf s)
    (props : propsOf t = update (propsOf s) c props')
    (fit : ∀ e ∈ es, e.id = c → fits e.names)
    (lists : p.Lists c fits (listed key (propsOf s c)) (listed key props')) :
    Current t i key (p.entries es) := by
  obtain ⟨F, updates, leads⟩ := lists
  have unique : (es.map Entry.id).Nodup := by
    rw [current.ids]
    exact nodup
  rw [updates, updateEntry_eq_map unique]
  constructor
  case ids =>
    rw [children, ← current.ids, map_map]
    apply map_congr_left
    intro e _
    dsimp only [Function.comp_apply]
    split
    · rfl
    · rfl
  case names =>
    intro e' mem'
    obtain ⟨e, mem, rfl⟩ := mem_map.mp mem'
    rw [props]
    by_cases same : e.id = c
    · rw [if_pos same]
      rw [same, update_self]
      apply leads e.names (fit e mem same)
      rw [current.names e mem, same]
    · rw [if_neg same, update_of_ne same, current.names e mem]

/-- A directory without an entry is passed over. -/
theorem callPatch_absent {call : ImCall} (about : callObject call = some obj)
    (absent : obj.id.object ∉ es.map Entry.id) : (callPatch key call).entries es = es := by
  have insert : ∀ vals place, listInsert es vals obj.id.object false place = es := fun vals place =>
    listInsert_eq_update.trans (updateEntry_of_absent absent)
  have delete : listDelete es obj.id.object false = es := updateEntry_of_absent absent
  cases call with
  | newnode obj' place => cases about
  | remove obj' => cases about
  | createAll obj' props =>
    cases about
    rw [callPatch]
    induction named key props with
    | nil => rfl
    | cons prop rest ih =>
      dsimp only at ih ⊢
      rw [foldl_cons, insert]
      exact ih
  | destroyAll obj' props =>
    cases about
    rw [callPatch]
    induction named key props with
    | nil => rfl
    | cons prop rest ih =>
      dsimp only at ih ⊢
      rw [foldl_cons, delete]
      exact ih
  | createList obj' key' vals =>
    cases about
    rw [callPatch]
    split
    · exact insert vals _
    · rfl
  | destroyList obj' key' vals =>
    cases about
    rw [callPatch]
    split
    · exact delete
    · rfl
  | create obj' key' val place =>
    cases about
    rw [callPatch]
    split
    · exact updateEntry_of_absent absent
    · rfl
  | destroy obj' key' val place =>
    cases about
    rw [callPatch]
    split
    · exact updateEntry_of_absent absent
    · rfl

theorem callsPatch_absent (about : ∀ call ∈ calls, callObject call = some obj)
    (absent : obj.id.object ∉ es.map Entry.id) : (callsPatch key calls).entries es = es := by
  induction calls with
  | nil => rfl
  | cons call calls ih =>
    rw [callsPatch]
    change (callsPatch key calls).entries ((callPatch key call).entries es) = es
    rw [callPatch_absent (about call mem_cons_self) absent]
    exact ih fun call mem => about call (mem_cons_of_mem _ mem)

/-- A change keeps the listings up to date. -/
theorem Change.allCurrent (change : Change s t r calls) (tree : s.Tree) (all : AllCurrent s held)
    (tracks : Handle.Tracks ⟨s, held⟩ r) : AllCurrent t (calls.foldl (imCall pick) held) := by
  obtain ⟨distinct, current⟩ := all
  cases change with
  | kept children props =>
    refine ⟨distinct, fun h mem es found => (current h mem es found).congr ?_ (props h.id)⟩
    rw [children]
  | created child place parentId target request parent fresh children props =>
    obtain ⟨distinct', source⟩ := @imNewnode_from held child place distinct
    refine ⟨distinct', fun h' mem es' found => ?_⟩
    obtain ⟨h, mem, same, away, here⟩ := source h' mem
    injection same with id propname
    rw [id, propname]
    by_cases isParent : h.id = child.parent
    · obtain ⟨-, patched⟩ := here isParent
      rw [found] at patched
      obtain ⟨es, before, rfl⟩ := Option.map_eq_some_iff.mp patched.symm
      have now := current h mem es before
      have first := tracks.created parentId child.props place target request h mem
        (by rw [before]; exact Option.some_ne_none _) (isParent.trans parent)
      rw [isParent] at now ⊢
      exact now.create fresh children props first
    · rw [(away isParent).2] at found
      apply (current h mem es' found).congr
      · rw [children, update_of_ne isParent]
      intro c listed
      rw [props, update_of_ne]
      rintro rfl
      exact fresh h.id listed
  | destroyed child parentId request there listed only children props =>
    obtain ⟨distinct', source⟩ := @imRemove_from held child pick distinct
    refine ⟨distinct', fun h' mem es' found => ?_⟩
    obtain ⟨h, mem, patches⟩ := source h' mem
    injection patches.key with id propname
    rw [id, propname]
    by_cases isParent : h.id = child.parent
    · have patched := patches.entries isParent
      rw [found] at patched
      obtain ⟨es, before, rfl⟩ := Option.map_eq_some_iff.mp patched.symm
      have now := current h mem es before
      have has := tracks.removed parentId child.id child request there h mem
        (by rw [before]; exact Option.some_ne_none _) isParent
      rw [isParent] at now ⊢
      exact now.destroy (nodup_childrenOf tree) children props has
    · rw [(patches.elsewhere isParent).2] at found
      apply (current h mem es' found).congr
      · rw [children, update_of_ne isParent]
      intro c listed'
      apply props
      rintro rfl
      exact isParent (only h.id listed')
  | modified obj obj' calls id parent self there only edit children props =>
    obtain ⟨g, patched, patches⟩ := @Edit.patches obj' r obj.props obj'.props calls held pick edit
      distinct
    rw [patched]
    refine ⟨distinct.map fun h => (patches h).key, fun h' mem' es' found => ?_⟩
    obtain ⟨h, mem, rfl⟩ := mem_map.mp mem'
    obtain ⟨key, elsewhere, -, here⟩ := patches h
    rw [parent] at elsewhere here
    injection key with id' propname
    rw [id', propname]
    by_cases isParent : h.id = obj.parent
    · have after := here isParent
      rw [found] at after
      obtain ⟨es, before, rfl⟩ := Option.map_eq_some_iff.mp after.symm
      have now := current h mem es before
      by_cases listed' : obj.id.object ∈ childrenOf s h.id
      · have lists : s.Lists obj.parent r.self.object := by
          rw [self, ← isParent]
          exact lists_iff.mpr listed'
        have condition := tracks.edited obj (by rw [self]; exact there) h mem es before isParent lists
        have leads : (callsPatch h.propname calls).Lists obj'.id.object
            (Fits r h.propname obj.props) (listed h.propname obj.props)
            (listed h.propname obj'.props) :=
          edit.lists fun touched => ⟨(condition touched).1, (condition touched).2.1⟩
        rw [id] at leads
        refine now.edit (nodup_childrenOf tree) children props (fun e mem_e same => ?_)
          (by rw [propsOf_eq there]; exact leads)
        intro id i name place isCreatename touched
        exact (condition touched).2.2 e mem_e (by rw [self]; exact same) id i name place
          isCreatename touched
      · have absent : obj'.id.object ∉ es.map Entry.id := by
          rw [id, now.ids]
          exact listed'
        rw [callsPatch_absent edit.about absent]
        apply now.congr
        · rw [children]
        intro c mem_c
        rw [props, update_of_ne]
        rintro rfl
        exact listed' mem_c
    · rw [(elsewhere isParent).2] at found
      apply (current h mem es' found).congr
      · rw [children]
      intro c listed'
      rw [props, update_of_ne]
      rintro rfl
      exact isParent (only h.id listed')

end Requests

/-! ## Runs -/

section Runs

variable {val : Name} {held' : List Holder}

/-- What holds of a handle throughout a run. -/
structure Handle.Fresh (n : Handle) : Prop where
  sound : Sound n.store
  tree : n.store.Tree
  all : AllCurrent n.store n.held

variable (all : AllCurrent s held)

include all

theorem AllCurrent.of_kept (source : From Kept held held') :
    AllCurrent s held' where
  distinct := source.distinct
  current := by
    intro h' mem es found
    obtain ⟨h, mem', key, -, same⟩ := source.source h' mem
    injection key with id propname
    rw [id, propname]
    exact all.current h mem' es (same ▸ found)

theorem AllCurrent.congr (dir : t.dir = s.dir) : AllCurrent t held where
  distinct := all.distinct
  current := by
    intro h mem es found
    apply (all.current h mem es found).congr
    · rw [childrenOf, childrenOf, dir]
    · intro c _
      rw [propsOf, propsOf, dir]

/-- An index that is kept changes no listing. -/
theorem AllCurrent.storeIndex {index : ITree Name} :
    AllCurrent s (imStoreIndex held index i key) := by
  obtain ⟨distinct, source⟩ := @store_spec key i held (fun h => { h with index := some index })
    all.distinct fun h => rfl
  refine ⟨distinct, fun h' mem es found => ?_⟩
  rcases source h' mem with old | ⟨h, rfl, same, ⟨-, none⟩ | ⟨h₀, mem₀, key₀, -, entries₀⟩⟩
  · exact all.current h' old es found
  · cases none.symm.trans found
  injection key₀ with id propname
  rw [id, propname]
  exact all.current h₀ mem₀ es (entries₀ ▸ found)

/-- A new listing is kept. -/
theorem AllCurrent.storeList (current : Current s i key es) :
    AllCurrent s (imStoreList held i key es) := by
  obtain ⟨distinct, source⟩ := @store_spec key i held (fun h => { h with entries := some es })
    all.distinct fun h => rfl
  refine ⟨distinct, fun h' mem es' found => ?_⟩
  rcases source h' mem with old | ⟨h, rfl, same, -⟩
  · exact all.current h' old es' found
  obtain rfl : es = es' := Option.some.inj found
  injection same with id propname
  rw [id, propname]
  exact current

omit all

theorem Handle.Fresh.looks (fresh : n.Fresh) (looks : Looks n n' i key) : n'.Fresh := by
  obtain ⟨sound, tree, all⟩ := fresh
  have kept := all.of_kept (@patch_id_from key i n.held all.distinct)
  refine ⟨looks.reads.sound, looks.reads.tree tree, .congr ?_ looks.reads.dir⟩
  rcases looks.held with same | same | ⟨index, same, -⟩
  · exact same ▸ all
  · exact same ▸ kept
  · exact same ▸ kept.storeIndex

/-- The entries that a scan of a whole directory makes. -/
theorem current_listOf : Current s i key (listOf s i key) where
  ids := by
    rw [listOf, map_map]
    exact map_id _
  names := by
    intro e mem
    obtain ⟨c, -, rfl⟩ := mem_map.mp mem
    rfl

/-- A listing has an entry for each child, and leaves the handle fresh. -/
theorem Handle.Fresh.listConst (fresh : n.Fresh) : (n.listConst i key).2.Fresh ∧
    (n.listConst i key).2.store.dir = n.store.dir ∧ ∀ obj, n.store.dir i = some obj → ∃ es, (n.listConst i key).1 = .ok es ∧
      Current n.store i key es := by
  obtain ⟨sound, tree, all⟩ := fresh
  obtain ⟨reads, held, answers⟩ := @listConst_spec n i key sound tree
  have kept := all.of_kept (@patch_id_from key i n.held all.distinct)
  refine ⟨⟨reads.sound, reads.tree tree, .congr ?_ reads.dir⟩, reads.dir, fun obj there => ?_⟩
  · rcases held with same | same | same
    · exact same ▸ all
    · exact same ▸ kept
    · exact same ▸ kept.storeList current_listOf
  · obtain ⟨es, answered, found | rfl⟩ := answers obj there
    · obtain ⟨h, holder, saved⟩ := Option.bind_eq_some_iff.mp found
      obtain ⟨mem, key_eq⟩ := mem_of_findholder holder
      injection key_eq with id propname
      have current := all.current h mem es saved
      rw [id, propname] at current
      exact ⟨es, answered, current⟩
    · exact ⟨_, answered, current_listOf⟩

theorem Handle.Fresh.open (sound : Sound s) (tree : s.Tree) : (Handle.open s).Fresh :=
  ⟨sound, tree, nodup_nil, fun _ mem => absurd mem not_mem_nil⟩

/-- One call. -/
theorem Handle.Fresh.next {call : Call} (fresh : n.Fresh) (trackable : n.Trackable call)
    (taken : n.next call = some n') : n'.Fresh := by
  cases call with
  | request user w pick r =>
    cases taken
    obtain ⟨keeps, tree, change⟩ := @request_change n.store w user r fresh.sound fresh.tree
      trackable.clear
    rw [request_eq]
    exact ⟨keeps.sound, tree, change.allCurrent fresh.tree fresh.all trackable⟩
  | lookup id pname pval =>
    cases taken
    exact fresh.looks (lookup_spec fresh.sound fresh.tree).1
  | lookupread id pname pval =>
    cases taken
    exact fresh.looks (lookupread_spec fresh.sound fresh.tree)
  | listConst id pname =>
    cases taken
    exact fresh.listConst.1
  | forget drops =>
    cases taken
    have tree : ({ n.store with
        cache := fun i => if drops i then none else n.store.cache i } : Store).Tree :=
      fresh.tree.of_dir rfl fun _ old => old
    exact ⟨forget_sound fresh.sound, tree,
      (fresh.all.of_kept (imForget_from fresh.all.distinct)).congr rfl⟩

/-- After any run of calls that the index manager can follow, on a database that is a tree: a
listing of a directory has one entry for each child, in their order, with the values of the child's
first property of the name that has any. -/
theorem cached_listing_agrees (sound : Sound s) (tree : s.Tree)
    (run : Run Handle.next Handle.Trackable (Handle.open s) n)
    (there : n.store.dir i = some obj) (key : Name) :
    ∃ es, (n.listConst i key).1 = .ok es ∧ es.map Entry.id = obj.children ∧
      ∀ e ∈ es, ∃ child, n.store.dir e.id = some child ∧
        e.names.getD [] = (listedValues key child.props).getD [] := by
  have fresh : n.Fresh := run.invariant (Fresh.open sound tree)
    fun fresh trackable taken => fresh.next trackable taken
  obtain ⟨es, listing, ids, names⟩ := fresh.listConst.2.2 obj there
  have children := childrenOf_eq there
  refine ⟨es, listing, ids.trans children, fun e mem => ?_⟩
  have mem_children : e.id ∈ obj.children := by
    rw [← children, ← ids]
    exact mem_map_of_mem mem
  obtain ⟨child, child_there⟩ := children_there fresh.tree there e.id mem_children
  refine ⟨child, child_there, ?_⟩
  rw [names e mem, propsOf_eq child_there]
  rfl

/-- A listing of the root is kept, and a child is given the property. -/
def listedCalls : List Call :=
  [.listConst 0 [107], .request (some accessUserSuper) Writes.all (fun _ _ => true)
      (.createprop ⟨1, 1⟩ ⟨[107], [[118]]⟩ 0)]

/-- A listing of the root is kept, and a child without the property is removed. -/
def removedCalls : List Call :=
  [.listConst 0 [107],
    .request (some accessUserSuper) Writes.all (fun _ _ => true) (.destroy ⟨0, 1⟩ ⟨1, 1⟩)]

/-- The listing that is kept has the value of the child. -/
theorem cached_listing_agrees_wide : ∃ n,
    Run Handle.next Handle.Trackable (Handle.open wide) n ∧
      n.held.any (·.entries.isSome) = true ∧ ∃ es, (n.listConst 0 [107]).1 = .ok es ∧
        ⟨1, some [[118]]⟩ ∈ es ∧ ∃ child, n.store.dir 1 = some child ∧
          [[118]] = (listedValues [107] child.props).getD [] := by
  have computed : (runActions Handle.next (Handle.open wide) listedCalls).any (fun n =>
      n.held.any (·.entries.isSome) && ((n.listConst 0 [107]).1.toOption.any fun es =>
        decide (⟨1, some [[118]]⟩ ∈ es)) && (n.store.dir 0).isSome) = true := by decide +kernel
  obtain ⟨n₁, looked, dir⟩ : ∃ n₁,
      (Handle.open wide).next (.listConst 0 [107]) = some n₁ ∧ n₁.store.dir = wide.dir :=
    ⟨_, rfl, (@Handle.Fresh.listConst (Handle.open wide) 0 [107] (.open sound_wide tree_wide)).2.1⟩
  have tracks : n₁.Tracks (.createprop ⟨1, 1⟩ ⟨[107], [[118]]⟩ 0) := by
    constructor
    case clear => trivial
    case created => exact fun _ _ _ _ create => by cases create
    case edited =>
      intro obj there h _ es _ _ _ _
      rw [dir, dir_wide] at there
      cases there
      refine ⟨Nat.zero_le _, fun _ => rfl, fun e _ _ => ?_⟩
      exact fun _ _ _ _ createname => by cases createname
    case removed => exact fun _ _ _ destroy => by cases destroy
  have run : Run Handle.next Handle.Trackable (Handle.open wide)
      (n₁.request (some accessUserSuper) Writes.all (fun _ _ => true)
        (.createprop ⟨1, 1⟩ ⟨[107], [[118]]⟩ 0)).2 := by
    have first : Run Handle.next Handle.Trackable (Handle.open wide) n₁ :=
      .step (a := .listConst 0 [107]) .start trivial looked
    have trackable : n₁.Trackable (.request (some accessUserSuper) Writes.all (fun _ _ => true)
      (.createprop ⟨1, 1⟩ ⟨[107], [[118]]⟩ 0)) := tracks
    exact first.step trackable rfl
  have reached : runActions Handle.next (Handle.open wide) listedCalls =
      some (n₁.request (some accessUserSuper) Writes.all (fun _ _ => true)
        (.createprop ⟨1, 1⟩ ⟨[107], [[118]]⟩ 0)).2 := by
    rw [listedCalls, runActions, looked]
    rfl
  rw [reached, Option.any_some] at computed
  generalize (n₁.request (some accessUserSuper) Writes.all (fun _ _ => true)
    (.createprop ⟨1, 1⟩ ⟨[107], [[118]]⟩ 0)).2 = n at *
  simp only [Bool.and_eq_true] at computed
  obtain ⟨⟨kept, found⟩, isRoot⟩ := computed
  obtain ⟨root, there⟩ := Option.isSome_iff_exists.mp isRoot
  obtain ⟨es, listing, -, names⟩ := cached_listing_agrees sound_wide tree_wide run there [107]
  rw [listing] at found
  have mem : (⟨1, some [[118]]⟩ : Entry) ∈ es := of_decide_eq_true found
  obtain ⟨child, child_there, values⟩ := names _ mem
  exact ⟨n, run, kept, es, listing, mem, child, child_there, values⟩

/-- A child that was removed is still listed. -/
theorem removed_child_listed : ∃ s n, Sound s ∧ s.Tree ∧
    Run Handle.next (fun _ _ => True) (Handle.open s) n ∧
      ∃ es, (n.listConst 0 [107]).1 = .ok es ∧ 1 ∈ es.map Entry.id ∧ ¬ n.store.Lists 0 1 := by
  have computed : (runActions Handle.next (Handle.open wide) removedCalls).any (fun n =>
      ((n.listConst 0 [107]).1.toOption.any fun es => decide (1 ∈ es.map Entry.id)) &&
        !decide (n.store.Lists 0 1)) = true := by decide +kernel
  cases taken : runActions Handle.next (Handle.open wide) removedCalls with
  | none =>
    rw [taken] at computed
    cases computed
  | some n =>
    rw [taken] at computed
    simp only [Option.any_some, Bool.and_eq_true, Bool.not_eq_true',
      decide_eq_false_iff_not] at computed
    refine ⟨wide, n, sound_wide, tree_wide, run_of_runActions taken, ?_⟩
    cases found : (n.listConst 0 [107]).1 with
    | error status =>
      rw [found] at computed
      cases computed.1
    | ok es =>
      rw [found] at computed
      exact ⟨es, rfl, of_decide_eq_true computed.1, computed.2⟩

end Runs

end Darwin.Netinfo.Index
