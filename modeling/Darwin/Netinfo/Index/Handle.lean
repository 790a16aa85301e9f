import Darwin.Netinfo.Index.Patch
import Darwin.Netinfo.Server.Tree

/-!
# The calls on a NetInfo handle

`ni_lookup`, `ni_lookupread`, `ni_list_const` and `ni_forget` of `ni.c`, made by a caller who may
read everything, next to the requests that modify the database and patch what the index manager
holds.

## Main results

* `scan_spec`, `scanRead_spec`, `listing_spec` - what a scan of the children finds
-/

namespace Darwin.Netinfo.Index

open List Darwin.Lib

/-- Names are compared byte by byte. -/
scoped instance : LawfulBEq Name := inferInstance

/-- `INDEX_THRESH`. -/
def indexThresh : ℕ := 32

/-- `ni_handle`: the directories and the index manager. -/
structure Handle where
  store : Store
  held : List Holder

/-- A handle on a database, with nothing held. -/
def Handle.open (s : Store) : Handle := ⟨s, []⟩

/-- What a scan has found so far: the ids that match, and the index, unless there is to be none. -/
structure Scanned where
  res : List ℕ
  index : Option (ITree Name)

/-- The loop of `ni_lookup`, and of `ni_lookupread` as long as there is an index to be made. -/
def scan (pname pval : Name) : List ℕ → Scanned → Store → Scanned × Store
  | [], found, s => (found, s)
  | c :: children, found, s =>
    match s.objLookupRead c with
    | (.error _, s') => scan pname pval children { found with index := none } s'
    | (.ok tmp, s') =>
      match propFind tmp.props pname with
      | none => scan pname pval children found s'
      | some prop =>
        scan pname pval children
          { res := if pval ∈ prop.values then found.res ++ [tmp.id.object] else found.res
            index := found.index.map fun t => indexInsertList t prop.values tmp.id.object } s'

/-- The index that a scan starts with. -/
def pleaseIndex (obj : Object) : Option (ITree Name) :=
  if obj.children.length ≥ indexThresh then some .nil else none

/-- The answer to a lookup: no directory is an error. -/
def answer (res : List ℕ) : Except Status (List ℕ) := if res = [] then .error .nodir else .ok res

/-- `ni_lookup`. -/
def Handle.lookup (n : Handle) (id : ℕ) (pname pval : Name) : Except Status (List ℕ) × Handle :=
  match n.store.objLookupRead id with
  | (.error status, s) => (.error status, { n with store := s })
  | (.ok obj, s) =>
    match imHasIndexedDir n.held id pname pval with
    | (some dirs, held) => (answer dirs, ⟨s, held⟩)
    | (none, held) =>
      match scan pname pval obj.children ⟨[], pleaseIndex obj⟩ s with
      | (⟨res, none⟩, s') => (answer res, ⟨s', held⟩)
      | (⟨res, some index⟩, s') =>
        (answer res, ⟨s', imStoreIndex held index obj.id.object pname⟩)

/-- The loop of `ni_lookupread`: the properties of the first directory that matches.  It ends there
unless an index is made. -/
def scanRead (pname pval : Name) : List ℕ → Option (List Property) × Option (ITree Name) → Store →
    (Option (List Property) × Option (ITree Name)) × Store
  | [], found, s => (found, s)
  | c :: children, found, s =>
    if found.2.isSome || found.1.isNone then
      match s.objLookupRead c with
      | (.error _, s') => scanRead pname pval children (found.1, none) s'
      | (.ok tmp, s') =>
        match propFind tmp.props pname with
        | none => scanRead pname pval children found s'
        | some prop =>
          scanRead pname pval children
            (if pval ∈ prop.values then found.1 <|> some tmp.props else found.1,
              found.2.map fun t => indexInsertList t prop.values tmp.id.object) s'
    else (found, s)

/-- `ni_lookupread`. -/
def Handle.lookupread (n : Handle) (id : ℕ) (pname pval : Name) :
    Except Status (List Property) × Handle :=
  match n.store.objLookupRead id with
  | (.error status, s) => (.error status, { n with store := s })
  | (.ok obj, s) =>
    match imHasIndexedDir n.held id pname pval with
    | (some [], held) => (.error .nodir, ⟨s, held⟩)
    | (some (dir :: _), held) =>
      match s.objLookupRead dir with
      | (.error status, s') => (.error status, ⟨s', held⟩)
      | (.ok tmp, s') => (.ok tmp.props, ⟨s', held⟩)
    | (none, held) =>
      match scanRead pname pval obj.children (none, pleaseIndex obj) s with
      | ((props, none), s') => (props.elim (.error .nodir) .ok, ⟨s', held⟩)
      | ((props, some index), s') =>
        (props.elim (.error .nodir) .ok, ⟨s', imStoreIndex held index obj.id.object pname⟩)

/-- What `ni_list_const` lists for a directory: the values of the first property of this name that
has any. -/
def listedValues (key : Name) (props : List Property) : Option (List Name) :=
  (props.find? fun prop => prop.name = key ∧ prop.values ≠ []).map (·.values)

/-- The loop of `ni_list_const`.  The array is cleared at first, and left so for a child that cannot
be read. -/
def listing (pname : Name) : List ℕ → Store → List Entry × Store
  | [], s => ([], s)
  | c :: children, s =>
    match s.objLookupRead c with
    | (.error _, s') => (⟨0, none⟩ :: (listing pname children s').1, (listing pname children s').2)
    | (.ok tmp, s') =>
      (⟨tmp.id.object, listedValues pname tmp.props⟩ :: (listing pname children s').1,
        (listing pname children s').2)

/-- `ni_list_const`. -/
def Handle.listConst (n : Handle) (id : ℕ) (pname : Name) : Except Status (List Entry) × Handle :=
  match n.store.objLookupRead id with
  | (.error status, s) => (.error status, { n with store := s })
  | (.ok obj, s) =>
    match imHasSavedList n.held id pname with
    | (some entries, held) => (.ok entries, ⟨s, held⟩)
    | (none, held) =>
      let res := listing pname obj.children s
      (.ok res.1, ⟨res.2, if obj.children.length ≥ indexThresh
        then imStoreList held obj.id.object pname res.1 else held⟩)

/-- `ni_forget`.  `obj_forget` keeps some of the objects, those not used lately. -/
def Handle.forget (n : Handle) (drops : ℕ → Bool) : Handle :=
  ⟨{ n.store with cache := fun i => if drops i then none else n.store.cache i }, imForget n.held⟩

/-- The calls. -/
inductive Call where
  | request (user : Option Name) (w : Writes) (pick : ℕ → ℕ → Bool) (r : Request)
  | lookup (id : ℕ) (pname pval : Name)
  | lookupread (id : ℕ) (pname pval : Name)
  | listConst (id : ℕ) (pname : Name)
  | forget (drops : ℕ → Bool)

/-- A request that succeeds tells the index manager. -/
def Handle.request (n : Handle) (user : Option Name) (w : Writes) (pick : ℕ → ℕ → Bool)
    (r : Request) : Except Status Reply × Handle :=
  match n.store.perform user w r with
  | (.error status, s) => (.error status, { n with store := s })
  | (.ok reply, s) => (.ok reply, ⟨s, reply.calls.foldl (imCall pick) n.held⟩)

/-- The handle after a call. -/
def Handle.next (n : Handle) : Call → Option Handle
  | .request user w pick r => some (n.request user w pick r).2
  | .lookup id pname pval => some (n.lookup id pname pval).2
  | .lookupread id pname pval => some (n.lookupread id pname pval).2
  | .listConst id pname => some (n.listConst id pname).2
  | .forget drops => some (n.forget drops)

/-! ## Scans -/

section Scans

/-- The children of a directory. -/
def childrenOf (s : Store) (i : ℕ) : List ℕ := ((s.dir i).map (·.children)).getD []

/-- The properties of a directory. -/
def propsOf (s : Store) (i : ℕ) : List Property := ((s.dir i).map (·.props)).getD []

variable {s s' : Store} {i c : ℕ} {key val : Name} {children : List ℕ} {found : Scanned}
  {t : ITree Name} {obj : Object}

theorem lists_iff : s.Lists i c ↔ c ∈ childrenOf s i := by
  unfold childrenOf
  cases there : s.dir i with
  | none =>
    refine iff_of_false ?_ not_mem_nil
    rintro ⟨obj, found, -⟩
    cases there.symm.trans found
  | some obj =>
    constructor
    · rintro ⟨obj', found, mem⟩
      cases there.symm.trans found
      exact mem
    · exact fun mem => ⟨obj, there, mem⟩

theorem childrenOf_eq (there : s.dir i = some obj) : childrenOf s i = obj.children := by
  rw [childrenOf, there]
  rfl

theorem propsOf_eq (there : s.dir i = some obj) : propsOf s i = obj.props := by
  rw [propsOf, there]
  rfl

/-- What looking at directories does to a store. -/
structure Reads (s s' : Store) : Prop where
  sound : Sound s'
  dir : s'.dir = s.dir
  leaked : s.leaked ⊆ s'.leaked

theorem Reads.refl (sound : Sound s) : Reads s s := ⟨sound, rfl, fun _ old => old⟩

theorem Reads.after {s'' : Store} (second : Reads s' s'') (first : Reads s s') : Reads s s'' :=
  ⟨second.sound, second.dir.trans first.dir, fun _ old => second.leaked (first.leaked old)⟩

theorem objLookupRead_reads (sound : Sound s) : Reads s (s.objLookupRead i).2 := by
  obtain ⟨-, sound', records, highest, -, leaked⟩ := @objLookupRead_spec s i sound
  exact ⟨sound', dir_congr records highest, leaked⟩

theorem objLookupRead_of_dir (sound : Sound s) (there : s.dir i = some obj) :
    (s.objLookupRead i).1 = .ok obj := by
  rw [(objLookupRead_spec sound).1, there]

theorem objLookupRead_of_none (sound : Sound s) (missing : s.dir i = none) :
    (s.objLookupRead i).1 = .error .badid := by
  rw [(objLookupRead_spec sound).1, missing]

theorem id_of_dir (there : s.dir i = some obj) : obj.id.object = i :=
  (dir_eq_some_iff.mp there).2.2

theorem Reads.children_eq (reads : Reads s s') : childrenOf s' = childrenOf s := by
  funext j
  rw [childrenOf, childrenOf, reads.dir]

theorem Reads.props_eq (reads : Reads s s') : propsOf s' = propsOf s := by
  funext j
  rw [propsOf, propsOf, reads.dir]

theorem Reads.tree (reads : Reads s s') (tree : s.Tree) : s'.Tree :=
  tree.of_dir reads.dir reads.leaked

/-- A directory that is there is read. -/
theorem objLookupRead_eq (sound : Sound s) (there : s.dir i = some obj) :
    ∃ s', s.objLookupRead i = (.ok obj, s') ∧ Reads s s' :=
  ⟨_, Prod.ext (objLookupRead_of_dir sound there) rfl, objLookupRead_reads sound⟩

theorem objLookupRead_missing (sound : Sound s) (missing : s.dir i = none) :
    ∃ s', s.objLookupRead i = (.error .badid, s') ∧ Reads s s' :=
  ⟨_, Prod.ext (objLookupRead_of_none sound missing) rfl, objLookupRead_reads sound⟩

/-- The index that comes of a scan of some of the children of a directory. -/
structure Indexed (s : Store) (key : Name) (children : List ℕ) (t t' : ITree Name) : Prop where
  ordered : t'.Ordered ranstrcmp
  holds : ∀ v c, t'.Holds v c ↔ t.Holds v c ∨ c ∈ children ∧ v ∈ firstValues key (propsOf s c)

theorem firstValues_of_none (missing : propFind (propsOf s c) key = none) :
    firstValues key (propsOf s c) = [] := by
  rw [firstValues, missing]
  rfl

theorem firstValues_of_some {prop : Property} (there : propFind (propsOf s c) key = some prop) :
    firstValues key (propsOf s c) = prop.values := by
  rw [firstValues, there]
  rfl

theorem Indexed.nil (ordered : t.Ordered ranstrcmp) : Indexed s key [] t t :=
  ⟨ordered, fun _ _ => (or_iff_left fun none => not_mem_nil none.1).symm⟩

/-- One more child. -/
theorem Indexed.cons {t' : ITree Name} (ordered : t.Ordered ranstrcmp)
    (rest : Indexed s key children (indexInsertList t (firstValues key (propsOf s c)) c) t') :
    Indexed s key (c :: children) t t' := by
  refine ⟨rest.ordered, fun v c' => ?_⟩
  rw [rest.holds, (indexInsertList_spec ordered).2, mem_cons]
  constructor
  · rintro ((old | ⟨value, rfl⟩) | ⟨mem, value⟩)
    · exact .inl old
    · exact .inr ⟨.inl rfl, value⟩
    · exact .inr ⟨.inr mem, value⟩
  · rintro (old | ⟨rfl | mem, value⟩)
    · exact .inl (.inl old)
    · exact .inl (.inr ⟨value, rfl⟩)
    · exact .inr ⟨mem, value⟩

theorem Reads.indexed {t' : ITree Name} (reads : Reads s s')
    (indexed : Indexed s' key children t t') : Indexed s key children t t' :=
  ⟨indexed.ordered, reads.props_eq ▸ indexed.holds⟩

/-- What a scan makes of the index that it was given. -/
structure Makes (s : Store) (key : Name) (children : List ℕ) (index index' : Option (ITree Name)) :
    Prop where
  without : index = none → index' = none
  made : ∀ t, index = some t → t.Ordered ranstrcmp →
    ∃ t', index' = some t' ∧ Indexed s key children t t'

variable {index index' : Option (ITree Name)}

theorem Makes.nil : Makes s key [] index index := ⟨id, fun t same ordered => ⟨t, same, .nil ordered⟩⟩

theorem Makes.cons (reads : Reads s s') (makes : Makes s' key children
      (index.map fun t => indexInsertList t (firstValues key (propsOf s c)) c) index') :
    Makes s key (c :: children) index index' := by
  refine ⟨fun none => makes.without (by rw [none]; rfl), fun t same ordered => ?_⟩
  obtain ⟨t', made, rest⟩ := makes.made _ (by rw [same]; rfl) (indexInsertList_spec ordered).1
  exact ⟨t', made, .cons ordered (reads.indexed rest)⟩

/-- A child without the property adds nothing. -/
theorem Makes.skip (reads : Reads s s') (makes : Makes s' key children index index')
    (values : firstValues key (propsOf s c) = []) : Makes s key (c :: children) index index' := by
  refine .cons reads ?_
  rw [values]
  exact (Option.map_id' (x := index)).symm ▸ makes

/-- What comes of the index that a lookup starts with. -/
theorem Makes.pleased {made : ITree Name} (makes : Makes s key children (pleaseIndex obj) index')
    (same : index' = some made) : Indexed s key children .nil made := by
  unfold pleaseIndex at makes
  split at makes
  · obtain ⟨t', same', indexed⟩ := makes.made _ rfl trivial
    cases same.symm.trans same'
    exact indexed
  · cases same.symm.trans (makes.without rfl)

/-- A scan finds the children that have the value, and makes an index of them all. -/
theorem scan_spec (sound : Sound s) (there : ∀ c ∈ children, ∃ child, s.dir c = some child) :
    Reads s (scan key val children found s).2 ∧ (scan key val children found s).1.res =
        found.res ++ children.filter (fun c => val ∈ firstValues key (propsOf s c)) ∧
      Makes s key children found.index (scan key val children found s).1.index := by
  induction children generalizing found s with
  | nil =>
    refine ⟨.refl sound, ?_, .nil⟩
    rw [scan, filter_nil, append_nil]
  | cons c children ih =>
    obtain ⟨child, here⟩ := there c mem_cons_self
    obtain ⟨s₁, looked, reads⟩ := objLookupRead_eq sound here
    have there₁ : ∀ c ∈ children, ∃ child, s₁.dir c = some child := by
      rw [reads.dir]
      exact fun c mem => there c (mem_cons_of_mem _ mem)
    rw [scan, looked]
    dsimp only
    cases matched : propFind child.props key with
    | none =>
      rw [← propsOf_eq here] at matched
      have values := firstValues_of_none matched
      obtain ⟨rest, res, makes⟩ := @ih s₁ found reads.sound there₁
      refine ⟨rest.after reads, ?_, makes.skip reads values⟩
      rw [res, reads.props_eq, filter_cons_of_neg]
      rw [values]
      simp
    | some prop =>
      rw [← propsOf_eq here] at matched
      have values := firstValues_of_some matched
      rw [id_of_dir here]
      obtain ⟨rest, res, makes⟩ := @ih s₁
        { res := if val ∈ prop.values then found.res ++ [c] else found.res
          index := found.index.map fun t => indexInsertList t prop.values c } reads.sound there₁
      refine ⟨rest.after reads, ?_, .cons reads (values ▸ makes)⟩
      rw [res, reads.props_eq]
      by_cases mem : val ∈ prop.values
      · rw [if_pos mem, filter_cons_of_pos, append_assoc, singleton_append]
        rw [values]
        exact decide_eq_true mem
      · rw [if_neg mem, filter_cons_of_neg]
        rw [values]
        simpa using mem

/-- The scan of `ni_lookupread` makes the same index. -/
theorem scanRead_spec {found : Option (List Property) × Option (ITree Name)} (sound : Sound s)
    (there : ∀ c ∈ children, ∃ child, s.dir c = some child) :
    Reads s (scanRead key val children found s).2 ∧
      Makes s key children found.2 (scanRead key val children found s).1.2 := by
  induction children generalizing found s with
  | nil => exact ⟨.refl sound, .nil⟩
  | cons c children ih =>
    rw [scanRead]
    by_cases goes : (found.2.isSome || found.1.isNone) = true
    case neg =>
      rw [if_neg goes]
      refine ⟨.refl sound, fun none => none, fun t here => ?_⟩
      rw [here] at goes
      exact absurd rfl goes
    rw [if_pos goes]
    obtain ⟨child, here⟩ := there c mem_cons_self
    obtain ⟨s₁, looked, reads⟩ := objLookupRead_eq sound here
    have there₁ : ∀ c ∈ children, ∃ child, s₁.dir c = some child := by
      rw [reads.dir]
      exact fun c mem => there c (mem_cons_of_mem _ mem)
    rw [looked]
    dsimp only
    cases matched : propFind child.props key with
    | none =>
      rw [← propsOf_eq here] at matched
      obtain ⟨rest, makes⟩ := @ih s₁ found reads.sound there₁
      exact ⟨rest.after reads, makes.skip reads (firstValues_of_none matched)⟩
    | some prop =>
      rw [← propsOf_eq here] at matched
      rw [id_of_dir here]
      obtain ⟨rest, makes⟩ := @ih s₁
        (if val ∈ prop.values then found.1 <|> some child.props else found.1,
          found.2.map fun t => indexInsertList t prop.values c) reads.sound there₁
      exact ⟨rest.after reads, .cons reads (firstValues_of_some matched ▸ makes)⟩

/-- A listing has an entry for each child, in order. -/
theorem listing_spec (sound : Sound s) (there : ∀ c ∈ children, ∃ child, s.dir c = some child) :
    Reads s (listing key children s).2 ∧ (listing key children s).1 =
      children.map fun c => ⟨c, listedValues key (propsOf s c)⟩ := by
  induction children generalizing s with
  | nil => exact ⟨.refl sound, rfl⟩
  | cons c children ih =>
    obtain ⟨child, here⟩ := there c mem_cons_self
    obtain ⟨s₁, looked, reads⟩ := objLookupRead_eq sound here
    obtain ⟨rest, entries⟩ := @ih s₁ reads.sound (by
      rw [reads.dir]
      exact fun c mem => there c (mem_cons_of_mem _ mem))
    rw [listing, looked]
    refine ⟨rest.after reads, ?_⟩
    dsimp only
    rw [entries, reads.props_eq, id_of_dir here, ← propsOf_eq here]
    rfl

end Scans

end Darwin.Netinfo.Index
