import Mathlib.Data.List.Perm.Subperm
import Darwin.Netinfo.Index.Manager

/-!
# What the index manager does to a holder

Every call about a change of properties goes through the holders one at a time: what becomes of a
holder depends on its directory and its name alone.

## Main definitions

* `Patch` - what a call means for the holder of a name

## Main results

* `imCall_eq_map` - a call is such a patch for every holder of the parent
* `imNewnode_spec`, `imRemove_spec`, `imForget_spec` - the other operations
-/

namespace Darwin.Netinfo.Index

open List

/-- The properties of one name. -/
def named (key : Name) (props : List Property) : List Property := props.filter (·.name = key)

/-- The values of all properties of one name. -/
def valuesOf (key : Name) (props : List Property) : List Name :=
  (named key props).flatMap (·.values)

variable {key val : Name} {props : List Property} {prop : Property} {t : ITree Name}
  {vals : List Name} {which i : ℕ} {pick : ℕ → Bool} {v : Name} {held : List Holder}
  {obj : Object} {h : Holder}

theorem named_append {others : List Property} :
    named key (props ++ others) = named key props ++ named key others := filter_append _ _

theorem valuesOf_append {others : List Property} :
    valuesOf key (props ++ others) = valuesOf key props ++ valuesOf key others := by
  rw [valuesOf, named_append, flatMap_append]
  rfl

theorem named_singleton_of_eq (same : prop.name = key) : named key [prop] = [prop] := by
  simp [named, same]

theorem named_singleton_of_ne (other : prop.name ≠ key) : named key [prop] = [] := by
  simp [named, other]

theorem valuesOf_singleton_of_eq (same : prop.name = key) : valuesOf key [prop] = prop.values := by
  rw [valuesOf, named_singleton_of_eq same, flatMap_singleton]

theorem valuesOf_singleton_of_ne (other : prop.name ≠ key) : valuesOf key [prop] = [] := by
  rw [valuesOf, named_singleton_of_ne other, flatMap_nil]

/-! ## Several values -/

section Trees

theorem indexInsertList_spec (ordered : t.Ordered ranstrcmp) :
    (indexInsertList t vals which).Ordered ranstrcmp ∧
      ∀ v i, (indexInsertList t vals which).Holds v i ↔ t.Holds v i ∨ v ∈ vals ∧ i = which := by
  induction vals generalizing t with
  | nil =>
    refine ⟨ordered, fun v i => ?_⟩
    rw [or_iff_left (fun both => not_mem_nil both.1)]
    rfl
  | cons val vals ih =>
    obtain ⟨ordered', holds⟩ := @indexInsert_spec _ ranstrcmp t val which _ _ ordered
    obtain ⟨ordered'', holds'⟩ := ih ordered'
    refine ⟨ordered'', fun v i => ?_⟩
    rw [indexInsertList, foldl_cons]
    rw [indexInsertList] at holds'
    rw [holds', holds, mem_cons]
    tauto

theorem indexDeleteList_spec (ordered : t.Ordered ranstrcmp) (nodup : vals.Nodup)
    (there : ∀ v ∈ vals, t.Holds v which) :
    (indexDeleteList pick t which vals).Ordered ranstrcmp ∧
      ∀ v i, (indexDeleteList pick t which vals).Holds v i ↔
        t.Holds v i ∧ ¬ (v ∈ vals ∧ i = which) := by
  induction vals generalizing t pick with
  | nil =>
    refine ⟨ordered, fun v i => ?_⟩
    rw [indexDeleteList, and_iff_left (fun both => not_mem_nil both.1)]
  | cons val vals ih =>
    obtain ⟨fresh, nodup'⟩ := nodup_cons.mp nodup
    obtain ⟨ordered', holds⟩ := @indexDelete_spec _ ranstrcmp t val which (pick 0) _ _ ordered
      (there val mem_cons_self)
    have there' : ∀ v ∈ vals, (indexDelete ranstrcmp (pick 0) t val which).Holds v which := by
      intro v mem
      rw [holds]
      refine ⟨there v (mem_cons_of_mem _ mem), ?_⟩
      rintro ⟨rfl, -⟩
      exact fresh mem
    obtain ⟨ordered'', holds'⟩ := @ih _ (fun i => pick (i + 1)) ordered' nodup' there'
    refine ⟨ordered'', fun v i => ?_⟩
    rw [indexDeleteList, holds', holds, mem_cons]
    tauto

theorem indexInsertList_append {vals' : List Name} : indexInsertList t (vals ++ vals') which =
    indexInsertList (indexInsertList t vals which) vals' which := foldl_append

/-- The subtrees that are picked after the first few deletions. -/
theorem indexDeleteList_append {pick' : ℕ → Bool} {vals' : List Name} :
    ∃ picks, indexDeleteList pick' (indexDeleteList pick t which vals) which vals' =
      indexDeleteList picks t which (vals ++ vals') := by
  induction vals generalizing t pick with
  | nil => exact ⟨pick', rfl⟩
  | cons val vals ih =>
    obtain ⟨picks, same⟩ := @ih (indexDelete ranstrcmp (pick 0) t val which) fun i => pick (i + 1)
    refine ⟨fun i => i.casesOn (pick 0) picks, ?_⟩
    rw [indexDeleteList, same]
    rfl

end Trees

/-! ## Changes of properties -/

/-- What a call means for the holder of a name: the values to be deleted from its index, those to be
inserted, and what becomes of its entries. -/
structure Patch where
  deletes : List Name
  inserts : List Name
  entries : List Entry → List Entry

/-- The call as a patch for the holder of a name; the others are no changes of properties. -/
def callPatch (key : Name) : ImCall → Patch
  | .newnode _ _ => ⟨[], [], id⟩
  | .remove _ => ⟨[], [], id⟩
  | .createAll obj props => ⟨[], valuesOf key props, fun entries => (named key props).foldl
      (fun entries prop => listInsert entries prop.values obj.id.object false niIndexNull) entries⟩
  | .destroyAll obj props => ⟨valuesOf key props, [], fun entries => (named key props).foldl
      (fun entries _ => listDelete entries obj.id.object false) entries⟩
  | .createList obj key' vals => if key' = key then
      ⟨[], vals, fun entries => listInsert entries vals obj.id.object false niIndexNull⟩
      else ⟨[], [], id⟩
  | .destroyList obj key' vals => if key' = key then
      ⟨vals, [], fun entries => listDelete entries obj.id.object false⟩ else ⟨[], [], id⟩
  | .create obj key' val place => if key' = key then
      ⟨[], [val], fun entries => listInsertOne entries val obj.id.object place⟩ else ⟨[], [], id⟩
  | .destroy obj key' val place => if key' = key then
      ⟨[val], [], fun entries => listDeleteOne entries obj.id.object place⟩ else ⟨[], [], id⟩

/-- The directory whose properties a call is about. -/
def callObject : ImCall → Option Object
  | .newnode _ _ => none
  | .remove _ => none
  | .createAll obj _ => some obj
  | .destroyAll obj _ => some obj
  | .createList obj _ _ => some obj
  | .destroyList obj _ _ => some obj
  | .create obj _ _ _ => some obj
  | .destroy obj _ _ _ => some obj

/-- The holder is patched, if it is one of this directory. -/
structure Patches (parent which : ℕ) (p : Patch) (h h' : Holder) : Prop where
  key : h'.key = h.key
  elsewhere : h.id ≠ parent → h'.index = h.index ∧ h'.entries = h.entries
  index : h.id = parent → ∃ picks, h'.index =
    h.index.map fun t => indexInsertList (indexDeleteList picks t which p.deletes) p.inserts which
  entries : h.id = parent → h'.entries = h.entries.map p.entries

/-- A patch of nothing. -/
theorem patches_nothing {parent : ℕ} {h' : Holder} (key : h'.key = h.key)
    (index : h'.index = h.index) (entries : h'.entries = h.entries) :
    Patches parent which ⟨[], [], id⟩ h h' where
  key := key
  elsewhere := fun _ => ⟨index, entries⟩
  index := fun _ => ⟨fun _ => true, by
    rw [index]
    cases h.index with
    | none => rfl
    | some t => rfl⟩
  entries := fun _ => by rw [entries, Option.map_id, id]

/-- One holder is found, or none. -/
theorem patches_patch {parent : ℕ} {p : Patch} {f : Holder → Holder} (distinct : Distinct held)
    (found : ∀ h, h.key = (parent, key) →
      Patches parent which p h (f { h with refcount := h.refcount + 1 })) :
    ∃ g, patch parent key f held = held.map g ∧
      ∀ h, Patches parent which (if h.propname = key then p else ⟨[], [], id⟩) h (g h) := by
  refine ⟨_, patch_eq_map distinct, fun h => ?_⟩
  by_cases name : h.propname = key
  · rw [if_pos name]
    by_cases here : h.id = parent
    · rw [if_pos (key_eq_iff.mpr ⟨here, name⟩)]
      exact found h (key_eq_iff.mpr ⟨here, name⟩)
    · rw [if_neg fun same => here (key_eq_iff.mp same).1]
      exact ⟨rfl, fun _ => ⟨rfl, rfl⟩, fun there => absurd there here,
        fun there => absurd there here⟩
  · rw [if_neg name, if_neg fun same => name (key_eq_iff.mp same).2]
    exact patches_nothing rfl rfl rfl

/-- One patch after the other, as long as nothing is deleted after an insertion. -/
def Patch.andThen (p p' : Patch) : Patch :=
  ⟨p.deletes ++ p'.deletes, p.inserts ++ p'.inserts, fun entries => p'.entries (p.entries entries)⟩

theorem Patches.andThen {parent : ℕ} {p p' : Patch} {h' h'' : Holder}
    (first : Patches parent which p h h') (second : Patches parent which p' h' h'')
    (order : p.inserts = [] ∨ p'.deletes = []) : Patches parent which (p.andThen p') h h'' := by
  have same : h'.id = h.id := congrArg Prod.fst first.key
  constructor
  case key => exact second.key.trans first.key
  case elsewhere =>
    intro away
    obtain ⟨index, entries⟩ := first.elsewhere away
    obtain ⟨index', entries'⟩ := second.elsewhere (same ▸ away)
    exact ⟨index'.trans index, entries'.trans entries⟩
  case index =>
    intro here
    obtain ⟨picks, index⟩ := first.index here
    obtain ⟨picks', index'⟩ := second.index (same.trans here)
    rw [index', index, Option.map_map]
    cases h.index with
    | none => exact ⟨picks, rfl⟩
    | some t =>
      rcases order with none | none
      · obtain ⟨both, deleted⟩ := @indexDeleteList_append t p.deletes which picks picks' p'.deletes
        refine ⟨both, ?_⟩
        simp only [Patch.andThen, none, nil_append, Option.map_some, Function.comp_apply, ← deleted]
        rfl
      · refine ⟨picks, ?_⟩
        simp only [Patch.andThen, none, append_nil, Option.map_some, Function.comp_apply,
          indexInsertList_append]
        rfl
  case entries =>
    intro here
    rw [second.entries (same.trans here), first.entries here, Option.map_map]
    rfl

theorem valuesOf_cons : valuesOf key (prop :: props) =
    (if prop.name = key then prop.values else []) ++ valuesOf key props := by
  have append := @valuesOf_append key [prop] props
  rw [singleton_append] at append
  rw [append]
  by_cases same : prop.name = key
  · rw [if_pos same, valuesOf_singleton_of_eq same]
  · rw [if_neg same, valuesOf_singleton_of_ne same]

theorem named_cons : named key (prop :: props) =
    (if prop.name = key then [prop] else []) ++ named key props := by
  have append := @named_append key [prop] props
  rw [singleton_append] at append
  rw [append]
  by_cases same : prop.name = key
  · rw [if_pos same, named_singleton_of_eq same]
  · rw [if_neg same, named_singleton_of_ne same]

/-- `im_create_list` for one holder. -/
theorem imCreateList_eq_map (distinct : Distinct held) :
    ∃ g, imCreateList held obj key vals = held.map g ∧ ∀ h, Patches obj.parent obj.id.object
      (callPatch h.propname (.createList obj key vals)) h (g h) := by
  obtain ⟨g, same, patches⟩ : ∃ g, imCreateList held obj key vals = held.map g ∧
      ∀ h : Holder, Patches obj.parent obj.id.object (if h.propname = key then
        ⟨[], vals, fun entries => listInsert entries vals obj.id.object false niIndexNull⟩
        else ⟨[], [], id⟩) h (g h) :=
    patches_patch distinct fun h found => ⟨rfl, fun away => absurd (key_eq_iff.mp found).1 away,
      fun _ => ⟨fun _ => true, rfl⟩, fun _ => rfl⟩
  refine ⟨g, same, fun h => ?_⟩
  have patched := patches h
  rw [callPatch]
  by_cases name : h.propname = key
  · rw [if_pos name.symm]
    rwa [if_pos name] at patched
  · rw [if_neg (Ne.symm name)]
    rwa [if_neg name] at patched

/-- `im_destroy_list` for one holder, or a round of `_im_destroy_all`. -/
theorem destroyList_eq_map {picks : ℕ → Bool} {shrink : Bool} (distinct : Distinct held) :
    ∃ g, patch obj.parent key (fun h =>
        (h.withIndex fun t => indexDeleteList picks t obj.id.object vals).withEntries
          fun entries => listDelete entries obj.id.object shrink) held = held.map g ∧
      ∀ h : Holder, Patches obj.parent obj.id.object (if h.propname = key then
        ⟨vals, [], fun entries => listDelete entries obj.id.object shrink⟩ else ⟨[], [], id⟩)
        h (g h) :=
  patches_patch distinct fun _ found => ⟨rfl, fun away => absurd (key_eq_iff.mp found).1 away,
    fun _ => ⟨picks, rfl⟩, fun _ => rfl⟩

theorem Distinct.map {g : Holder → Holder} (distinct : Distinct held)
    (keeps : ∀ h, (g h).key = h.key) : Distinct (held.map g) := by
  rw [Distinct, map_key_of_map keeps]
  exact distinct

/-- `im_create_all` for one holder. -/
theorem imCreateAll_eq_map (distinct : Distinct held) :
    ∃ g, imCreateAll held obj props = held.map g ∧ ∀ h, Patches obj.parent obj.id.object
      (callPatch h.propname (.createAll obj props)) h (g h) := by
  induction props generalizing held with
  | nil => exact ⟨id, map_id held |>.symm, fun h => patches_nothing rfl rfl rfl⟩
  | cons prop props ih =>
    obtain ⟨g, same, patches⟩ := @imCreateList_eq_map prop.name prop.values held obj distinct
    obtain ⟨g', same', patches'⟩ := ih (distinct.map fun h => (patches h).key)
    refine ⟨g' ∘ g, ?_, fun h => ?_⟩
    · rw [← map_map, ← same', ← same]
      rfl
    have name : (g h).propname = h.propname := congrArg Prod.snd (patches h).key
    have both := (patches h).andThen (patches' (g h)) (.inr rfl)
    rw [name] at both
    suffices callPatch h.propname (.createAll obj (prop :: props)) =
        (callPatch h.propname (.createList obj prop.name prop.values)).andThen
          (callPatch h.propname (.createAll obj props)) by
      rw [this]
      exact both
    simp only [callPatch, valuesOf_cons, named_cons]
    by_cases matched : prop.name = h.propname
    · simp only [if_pos matched]
      rfl
    · simp only [if_neg matched]
      rfl

/-- What `_im_destroy_all` means for the holder of a name. -/
def destroyPatch (shrink : Bool) (which : ℕ) (key : Name) (props : List Property) : Patch :=
  ⟨valuesOf key props, [], fun entries => (named key props).foldl
    (fun entries _ => listDelete entries which shrink) entries⟩

/-- `_im_destroy_all` for one holder. -/
theorem imDestroyAll_eq_map {shrink : Bool} {picks : ℕ → ℕ → Bool} (distinct : Distinct held) :
    ∃ g, imDestroyAll shrink held obj picks props = held.map g ∧
      ∀ h, Patches obj.parent obj.id.object
        (destroyPatch shrink obj.id.object h.propname props) h (g h) := by
  induction props generalizing held picks with
  | nil => exact ⟨id, map_id held |>.symm, fun h => patches_nothing rfl rfl rfl⟩
  | cons prop props ih =>
    obtain ⟨g, same, patches⟩ := @destroyList_eq_map prop.name prop.values held obj (picks 0)
      shrink distinct
    obtain ⟨g', same', patches'⟩ := @ih _ (fun i => picks (i + 1))
      (distinct.map fun h => (patches h).key)
    refine ⟨g' ∘ g, ?_, fun h => ?_⟩
    · rw [← map_map, ← same', ← same]
      rfl
    have name : (g h).propname = h.propname := congrArg Prod.snd (patches h).key
    have none : (if h.propname = prop.name then (⟨prop.values, [], fun entries =>
        listDelete entries obj.id.object shrink⟩ : Patch) else ⟨[], [], id⟩).inserts = [] := by
      split
      · rfl
      · rfl
    have both := (patches h).andThen (patches' (g h)) (.inl none)
    rw [name] at both
    suffices destroyPatch shrink obj.id.object h.propname (prop :: props) =
        (if h.propname = prop.name then (⟨prop.values, [], fun entries =>
          listDelete entries obj.id.object shrink⟩ : Patch) else ⟨[], [], id⟩).andThen
          (destroyPatch shrink obj.id.object h.propname props) by
      rw [this]
      exact both
    simp only [destroyPatch, valuesOf_cons, named_cons]
    by_cases matched : h.propname = prop.name
    · simp only [if_pos matched, if_pos matched.symm]
      rfl
    · simp only [if_neg matched, if_neg (Ne.symm matched)]
      rfl

/-- A call about the properties of a directory patches every holder of its parent. -/
theorem imCall_eq_map {call : ImCall} {picks : ℕ → ℕ → Bool} (distinct : Distinct held)
    (about : callObject call = some obj) :
    ∃ g, imCall picks held call = held.map g ∧ ∀ h, Patches obj.parent obj.id.object
      (callPatch h.propname call) h (g h) := by
  cases call with
  | newnode obj' place => cases about
  | remove obj' => cases about
  | createAll obj' props =>
    cases about
    exact imCreateAll_eq_map distinct
  | destroyAll obj' props =>
    cases about
    exact imDestroyAll_eq_map distinct
  | createList obj' key vals =>
    cases about
    exact imCreateList_eq_map distinct
  | destroyList obj' key vals =>
    obtain rfl := Option.some.inj about
    obtain ⟨g, same, patches⟩ := @destroyList_eq_map key vals held obj' (picks 0) false distinct
    refine ⟨g, same, fun h => ?_⟩
    have patched := patches h
    simp only [eq_comm (a := h.propname)] at patched
    exact patched
  | create obj' key val place =>
    obtain rfl := Option.some.inj about
    obtain ⟨g, same, patches⟩ : ∃ g, imCreate held obj' key val place = held.map g ∧
        ∀ h : Holder, Patches obj'.parent obj'.id.object (if h.propname = key then
          ⟨[], [val], fun entries => listInsertOne entries val obj'.id.object place⟩
          else ⟨[], [], id⟩) h (g h) :=
      patches_patch distinct fun h found => ⟨rfl, fun away => absurd (key_eq_iff.mp found).1 away,
        fun _ => ⟨fun _ => true, rfl⟩, fun _ => rfl⟩
    refine ⟨g, same, fun h => ?_⟩
    have patched := patches h
    simp only [eq_comm (a := h.propname)] at patched
    exact patched
  | destroy obj' key val place =>
    obtain rfl := Option.some.inj about
    obtain ⟨g, same, patches⟩ : ∃ g, imDestroy held obj' picks key val place = held.map g ∧
        ∀ h : Holder, Patches obj'.parent obj'.id.object (if h.propname = key then
          ⟨[val], [], fun entries => listDeleteOne entries obj'.id.object place⟩
          else ⟨[], [], id⟩) h (g h) :=
      patches_patch distinct fun h found => ⟨rfl, fun away => absurd (key_eq_iff.mp found).1 away,
        fun _ => ⟨picks 0, rfl⟩, fun _ => rfl⟩
    refine ⟨g, same, fun h => ?_⟩
    have patched := patches h
    simp only [eq_comm (a := h.propname)] at patched
    exact patched

/-! ## The other operations -/

/-- The values of the first property of a name. -/
def firstValues (key : Name) (props : List Property) : List Name :=
  ((propFind props key).map (·.values)).getD []

/-- What is held afterwards comes from what was held before. -/
structure From (rel : Holder → Holder → Prop) (held held' : List Holder) : Prop where
  distinct : Distinct held'
  source : ∀ h' ∈ held', ∃ h ∈ held, rel h h'

/-- The same but for the count of its uses. -/
structure Kept (h h' : Holder) : Prop where
  key : h'.key = h.key
  index : h'.index = h.index
  entries : h'.entries = h.entries

section Others

variable {held' : List Holder} {g : Holder → Holder} {rel : Holder → Holder → Prop}
  {picks : ℕ → ℕ → Bool} {n place : ℕ}

theorem From.of_map (distinct : Distinct held) (keys : ∀ h, (g h).key = h.key)
    (related : ∀ h, rel h (g h)) : From rel held (held.map g) where
  distinct := distinct.map keys
  source := by
    intro h' mem
    obtain ⟨h, there, rfl⟩ := mem_map.mp mem
    exact ⟨h, there, related h⟩

/-- Some holders are dropped, and the others reordered. -/
theorem From.of_subperm (distinct : Distinct held)
    (fewer : (held'.map fun h => { h with refcount := 0 }).Subperm
      (held.map fun h => { h with refcount := 0 })) : From Kept held held' where
  distinct := by
    have keys : ∀ l : List Holder,
        l.map Holder.key = (l.map fun h => { h with refcount := 0 }).map Holder.key := fun l => by
      rw [map_map]
      rfl
    obtain ⟨l, perm, sub⟩ := fewer
    rw [Distinct, keys]
    rw [Distinct, keys] at distinct
    exact (perm.map _).nodup_iff.mp ((sub.map _).nodup distinct)
  source := by
    intro h' mem
    obtain ⟨h, there, same⟩ := mem_map.mp (fewer.subset (mem_map_of_mem mem))
    injection same with id refcount propname index entries
    refine ⟨h, there, ?_, index.symm, entries.symm⟩
    rw [Holder.key, Holder.key, id, propname]

theorem last_cons_perm {last : Holder} (found : held.getLast? = some last) :
    (last :: held.dropLast).Perm held := by
  have nonempty : held ≠ [] := by
    rintro rfl
    cases found
  rw [List.getLast?_eq_some_getLast nonempty] at found
  cases found
  have whole := dropLast_append_getLast nonempty
  have swapped : (held.dropLast ++ [held.getLast nonempty]).Perm
      ([held.getLast nonempty] ++ held.dropLast) := perm_append_comm
  rw [whole] at swapped
  exact swapped.symm

theorem forget_loop_subperm :
    ((imForget.loop n held).map fun h => { h with refcount := 0 }).Subperm
      (held.map fun h => { h with refcount := 0 }) := by
  induction n generalizing held with
  | zero => exact List.Subperm.refl _
  | succ n ih =>
    cases held with
    | nil => exact List.Subperm.refl _
    | cons h held =>
      rw [imForget.loop]
      split
      · split
        · exact nil_subperm
        · rename_i last found
          have rest := (last_cons_perm found).map fun h => { h with refcount := 0 }
          exact ih.trans (rest.subperm.trans (sublist_cons_self _ _).subperm)
      · exact (subperm_cons _).mpr ih

theorem imForget_from (distinct : Distinct held) : From Kept held (imForget held) :=
  .of_subperm distinct forget_loop_subperm

theorem dropHolders_subperm : (dropHolders which n held).Subperm held := by
  induction n generalizing held with
  | zero => exact List.Subperm.refl _
  | succ n ih =>
    cases held with
    | nil => exact List.Subperm.refl _
    | cons h held =>
      rw [dropHolders]
      split
      · split
        · exact nil_subperm
        rename_i last found
        have dropped := (subperm_cons last).mpr (@ih held.dropLast)
        have rest := (last_cons_perm found).subperm
        exact dropped.trans (rest.trans (sublist_cons_self _ _).subperm)
      · exact (subperm_cons _).mpr ih

/-- Removing a directory: its holders, or most of them, and what the parent's hold of it. -/
theorem imRemove_from (distinct : Distinct held) :
    From (fun h h' => Patches obj.parent obj.id.object
      (destroyPatch true obj.id.object h.propname obj.props) h h') held
      (imRemove held obj picks) := by
  have dropped := @dropHolders_subperm obj.id.object held held.length
  have distinct' : Distinct (dropHolders obj.id.object held.length held) := by
    obtain ⟨l, perm, sub⟩ := dropped
    exact (perm.map _).nodup_iff.mp ((sub.map _).nodup distinct)
  obtain ⟨g, same, patches⟩ := @imDestroyAll_eq_map obj.props _ obj true picks distinct'
  rw [imRemove, same]
  refine ⟨distinct'.map fun h => (patches h).key, fun h' mem => ?_⟩
  obtain ⟨h, there, rfl⟩ := mem_map.mp mem
  exact ⟨h, dropped.subset there, patches h⟩

/-- A new directory: every holder of its parent has its values, and an entry for it. -/
theorem imNewnode_from (distinct : Distinct held) :
    From (fun h h' => h'.key = h.key ∧
      (h.id ≠ obj.parent → h'.index = h.index ∧ h'.entries = h.entries) ∧
      (h.id = obj.parent →
        h'.index = (h.index.map fun t =>
          indexInsertList t (firstValues h.propname obj.props) obj.id.object) ∧
        h'.entries = h.entries.map fun entries =>
          listInsert entries (firstValues h.propname obj.props) obj.id.object true place)) held
      (imNewnode held obj place) := by
  refine .of_map distinct ?each fun h => ⟨?each h, fun away => ?_, fun here => ?_⟩
  · intro h
    split
    · split
      · rfl
      · rfl
    · rfl
  · rw [if_neg away]
    exact ⟨rfl, rfl⟩
  rw [if_pos here, firstValues]
  cases propFind obj.props h.propname with
  | some prop => exact ⟨rfl, rfl⟩
  | none =>
    refine ⟨?_, rfl⟩
    cases index : h.index with
    | none => exact index
    | some t => exact index

/-- A use of a holder. -/
theorem patch_id_from (distinct : Distinct held) : From Kept held (patch which key id held) := by
  rw [patch_eq_map distinct]
  have each : ∀ h : Holder, Kept h (if h.key = (which, key)
      then id { h with refcount := h.refcount + 1 } else h) := by
    intro h
    split
    · exact ⟨rfl, rfl, rfl⟩
    · exact ⟨rfl, rfl, rfl⟩
  exact .of_map distinct (fun h => (each h).key) each

/-- A holder that is stored is one that is kept, or the one that is changed. -/
theorem store_spec {f : Holder → Holder} (distinct : Distinct held)
    (keeps : ∀ h, (f h).key = h.key) :
    Distinct (store held which key f) ∧ ∀ h' ∈ store held which key f,
      h' ∈ held ∨ ∃ h, h' = f h ∧ h.key = (which, key) ∧
        (h.index = none ∧ h.entries = none ∨ ∃ h₀ ∈ held, Kept h₀ h) := by
  unfold store
  cases found : findholder held which key with
  | some h₀ =>
    refine ⟨distinct.patch keeps, fun h' mem => ?_⟩
    rw [patch_eq_map distinct] at mem
    obtain ⟨h, there, rfl⟩ := mem_map.mp mem
    by_cases here : h.key = (which, key)
    · rw [if_pos here]
      exact .inr ⟨_, rfl, here, .inr ⟨h, there, rfl, rfl, rfl⟩⟩
    · rw [if_neg here]
      exact .inl there
  | none =>
    refine ⟨?_, fun h' mem => ?_⟩
    · rw [Distinct, map_append, map_singleton, keeps]
      refine nodup_append.mpr ⟨distinct, nodup_singleton _, ?_⟩
      rintro k old k' new rfl
      obtain ⟨h, there, same⟩ := mem_map.mp old
      exact findholder_eq_none found there (same.trans (mem_singleton.mp new))
    · rcases mem_append.mp mem with old | new
      · exact .inl old
      · exact .inr ⟨_, mem_singleton.mp new, rfl, .inl ⟨rfl, rfl⟩⟩

end Others

end Darwin.Netinfo.Index
