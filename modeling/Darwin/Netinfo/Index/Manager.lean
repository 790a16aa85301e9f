import Darwin.Netinfo.Index.Ranstrcmp
import Darwin.Netinfo.Index.Tree
import Darwin.Netinfo.Server.Requests

/-!
# The index manager

`index_manager.c` keeps what was worked out about the children of a directory for a property name:
the search tree of a lookup (`index.c`) and the entries of a listing (`listops.c`).  Each request
that succeeds patches what is held.

## Main results

* `patch_eq_map` - a patch changes the one holder for the directory and the name
-/

namespace Darwin.Netinfo.Index

/-- `ni_entry`: the names are a pointer, which may be null. -/
structure Entry where
  id : ℕ
  names : Option (List Name)
  deriving DecidableEq, Repr

/-- `im_holder`. -/
structure Holder where
  id : ℕ
  refcount : ℕ
  propname : Name
  index : Option (ITree Name)
  entries : Option (List Entry)
  deriving DecidableEq, Repr

/-! ## Lists of entries (`listops.c`) -/

/-- Change the first entry of a directory. -/
def updateEntry (f : Option (List Name) → Option (List Name)) (which : ℕ) :
    List Entry → List Entry
  | [] => []
  | e :: entries =>
    if e.id = which then { e with names := f e.names } :: entries
    else e :: updateEntry f which entries

/-- `list_insert`. -/
def listInsert (entries : List Entry) (nl : List Name) (which : ℕ) (shouldgrow : Bool)
    (place : ℕ) : List Entry :=
  if entries.any (·.id = which) then updateEntry (fun _ => some nl) which entries
  else if shouldgrow then insertAt entries place ⟨which, some nl⟩
  else entries

/-- `list_delete`. -/
def listDelete (entries : List Entry) (which : ℕ) (shouldshrink : Bool) : List Entry :=
  if shouldshrink then entries.eraseP (·.id = which)
  else updateEntry (fun _ => none) which entries

/-- `list_delete_one`. -/
def listDeleteOne (entries : List Entry) (which place : ℕ) : List Entry :=
  updateEntry (fun names => names.map (·.eraseIdx place)) which entries

/-- `list_insert_one`. -/
def listInsertOne (entries : List Entry) (nm : Name) (which place : ℕ) : List Entry :=
  updateEntry (fun names => names.map fun nl => insertAt nl place nm) which entries

/-! ## Indexes -/

/-- `index_insert_list`. -/
def indexInsertList (t : ITree Name) (vals : List Name) (which : ℕ) : ITree Name :=
  vals.foldl (fun t val => indexInsert ranstrcmp t val which) t

/-- The loop that deletes the values of a property, one after the other.  Which subtree goes below
the other goes by an address each time. -/
def indexDeleteList (pick : ℕ → Bool) (t : ITree Name) (which : ℕ) : List Name → ITree Name
  | [] => t
  | val :: vals =>
    indexDeleteList (fun i => pick (i + 1)) (indexDelete ranstrcmp (pick 0) t val which) which vals

/-! ## Holders -/

def Holder.withIndex (h : Holder) (f : ITree Name → ITree Name) : Holder :=
  { h with index := h.index.map f }

def Holder.withEntries (h : Holder) (f : List Entry → List Entry) : Holder :=
  { h with entries := h.entries.map f }

/-- `findholder`: the first for this directory and this name. -/
def findholder (held : List Holder) (which : ℕ) (key : Name) : Option Holder :=
  held.find? fun h => h.id = which ∧ h.propname = key

/-- What the caller of `findholder` makes of the holder, if there is one.  To find it counts as a
use. -/
def patch (which : ℕ) (key : Name) (f : Holder → Holder) : List Holder → List Holder
  | [] => []
  | h :: held =>
    if h.id = which ∧ h.propname = key then f { h with refcount := h.refcount + 1 } :: held
    else h :: patch which key f held

/-- `im_forget`. -/
def imForget (held : List Holder) : List Holder := loop held.length held
where
  /-- The last holder takes the place of one that is dropped, and is looked at next. -/
  loop : ℕ → List Holder → List Holder
    | 0, held => held
    | _ + 1, [] => []
    | n + 1, h :: held =>
      if h.refcount = 0 then
        match held.getLast? with
        | none => []
        | some last => loop n (last :: held.dropLast)
      else { h with refcount := 0 } :: loop n held

/-- `im_create_all`. -/
def imCreateAll (held : List Holder) (obj : Object) (props : List Property) : List Holder :=
  props.foldl (fun held prop => patch obj.parent prop.name (fun h =>
    (h.withIndex fun t => indexInsertList t prop.values obj.id.object).withEntries fun entries =>
      listInsert entries prop.values obj.id.object false niIndexNull) held) held

/-- `im_newnode`: every listing of the parent has an entry for the child, with the values of its
first property of that name. -/
def imNewnode (held : List Holder) (obj : Object) (place : ℕ) : List Holder :=
  held.map fun h =>
    if h.id = obj.parent then
      match propFind obj.props h.propname with
      | some prop =>
        (Holder.withIndex { h with refcount := h.refcount + 1 } fun t =>
          indexInsertList t prop.values obj.id.object).withEntries fun entries =>
            listInsert entries prop.values obj.id.object true place
      | none => h.withEntries fun entries => listInsert entries [] obj.id.object true place
    else h

/-- `_im_destroy_all`. -/
def imDestroyAll (shouldshrink : Bool) (held : List Holder) (obj : Object)
    (pick : ℕ → ℕ → Bool) : List Property → List Holder
  | [] => held
  | prop :: props =>
    imDestroyAll shouldshrink (patch obj.parent prop.name (fun h =>
      (h.withIndex fun t => indexDeleteList (pick 0) t obj.id.object prop.values).withEntries
        fun entries => listDelete entries obj.id.object shouldshrink) held) obj
      (fun i => pick (i + 1)) props

/-- The loop of `im_remove`.  The last holder takes the place of one that is dropped, and is not
looked at. -/
def dropHolders (which : ℕ) : ℕ → List Holder → List Holder
  | 0, held => held
  | _ + 1, [] => []
  | n + 1, h :: held =>
    if h.id = which then
      match held.getLast? with
      | none => []
      | some last => last :: dropHolders which n held.dropLast
    else h :: dropHolders which n held

/-- `im_remove`. -/
def imRemove (held : List Holder) (obj : Object) (pick : ℕ → ℕ → Bool) : List Holder :=
  imDestroyAll true (dropHolders obj.id.object held.length held) obj pick obj.props

/-- `im_destroy_list`. -/
def imDestroyList (held : List Holder) (obj : Object) (pick : ℕ → ℕ → Bool) (key : Name)
    (vals : List Name) : List Holder :=
  patch obj.parent key (fun h =>
    (h.withIndex fun t => indexDeleteList (pick 0) t obj.id.object vals).withEntries
      fun entries => listDelete entries obj.id.object false) held

/-- `im_create_list`. -/
def imCreateList (held : List Holder) (obj : Object) (key : Name) (vals : List Name) :
    List Holder :=
  patch obj.parent key (fun h =>
    (h.withIndex fun t => indexInsertList t vals obj.id.object).withEntries fun entries =>
      listInsert entries vals obj.id.object false niIndexNull) held

/-- `im_destroy`. -/
def imDestroy (held : List Holder) (obj : Object) (pick : ℕ → ℕ → Bool) (key val : Name)
    (place : ℕ) : List Holder :=
  patch obj.parent key (fun h =>
    (h.withIndex fun t => indexDelete ranstrcmp (pick 0 0) t val obj.id.object).withEntries
      fun entries => listDeleteOne entries obj.id.object place) held

/-- `im_create`. -/
def imCreate (held : List Holder) (obj : Object) (key val : Name) (place : ℕ) : List Holder :=
  patch obj.parent key (fun h =>
    (h.withIndex fun t => indexInsert ranstrcmp t val obj.id.object).withEntries fun entries =>
      listInsertOne entries val obj.id.object place) held

/-- One call. -/
def imCall (pick : ℕ → ℕ → Bool) (held : List Holder) : ImCall → List Holder
  | .newnode obj place => imNewnode held obj place
  | .remove obj => imRemove held obj pick
  | .createAll obj props => imCreateAll held obj props
  | .destroyAll obj props => imDestroyAll false held obj pick props
  | .createList obj key vals => imCreateList held obj key vals
  | .destroyList obj key vals => imDestroyList held obj pick key vals
  | .create obj key val place => imCreate held obj key val place
  | .destroy obj key val place => imDestroy held obj pick key val place

/-- A change of the holder for a directory and a name, which is made if there is none. -/
def store (held : List Holder) (which : ℕ) (key : Name) (f : Holder → Holder) : List Holder :=
  match findholder held which key with
  | some _ => patch which key f held
  | none => held ++ [f ⟨which, 0, key, none, none⟩]

/-- `im_store_index`. -/
def imStoreIndex (held : List Holder) (index : ITree Name) (which : ℕ) (key : Name) :
    List Holder :=
  store held which key fun h => { h with index := some index }

/-- `im_store_list`. -/
def imStoreList (held : List Holder) (which : ℕ) (key : Name) (entries : List Entry) :
    List Holder :=
  store held which key fun h => { h with entries := some entries }

/-- `im_has_indexed_dir`. -/
def imHasIndexedDir (held : List Holder) (which : ℕ) (key val : Name) :
    Option (List ℕ) × List Holder :=
  (((findholder held which key).bind (·.index)).map fun t => indexLookup ranstrcmp t val,
    patch which key id held)

/-- `im_has_saved_list`. -/
def imHasSavedList (held : List Holder) (which : ℕ) (key : Name) :
    Option (List Entry) × List Holder :=
  ((findholder held which key).bind (·.entries), patch which key id held)

/-! ## Holders by directory and name -/

/-- What a holder is found by. -/
def Holder.key (h : Holder) : ℕ × Name := (h.id, h.propname)

/-- No two holders are for the same directory and name. -/
def Distinct (held : List Holder) : Prop := (held.map Holder.key).Nodup

section Patch

variable {held : List Holder} {which : ℕ} {key : Name} {f : Holder → Holder} {h : Holder}

theorem key_eq_iff : h.key = (which, key) ↔ h.id = which ∧ h.propname = key := Prod.ext_iff

/-- A patch is of the one holder that is found. -/
theorem patch_eq_map (distinct : Distinct held) : patch which key f held =
    held.map fun h => if h.key = (which, key) then f { h with refcount := h.refcount + 1 }
      else h := by
  induction held with
  | nil => rfl
  | cons h held ih =>
    obtain ⟨fresh, distinct'⟩ := List.nodup_cons.mp distinct
    rw [patch, List.map_cons]
    by_cases found : h.key = (which, key)
    · rw [if_pos (key_eq_iff.mp found), if_pos found]
      congr 1
      rw [List.map_congr_left (g := id), List.map_id]
      intro h' mem
      rw [if_neg]
      · rfl
      · intro same
        exact fresh (List.mem_map.mpr ⟨h', mem, same.trans found.symm⟩)
    · rw [if_neg (fun both => found (key_eq_iff.mpr both)), if_neg found, ih distinct']

theorem map_key_of_map {g : Holder → Holder} (keeps : ∀ h, (g h).key = h.key) :
    (held.map g).map Holder.key = held.map Holder.key := by
  rw [List.map_map]
  exact List.map_congr_left fun h _ => keeps h

theorem map_key_patch (keeps : ∀ h, (f h).key = h.key) :
    (patch which key f held).map Holder.key = held.map Holder.key := by
  induction held with
  | nil => rfl
  | cons h held ih =>
    rw [patch]
    split
    · rw [List.map_cons, List.map_cons, keeps]
      rfl
    · rw [List.map_cons, List.map_cons, ih]

theorem Distinct.patch (distinct : Distinct held) (keeps : ∀ h, (f h).key = h.key) :
    Distinct (patch which key f held) := by
  rw [Distinct, map_key_patch keeps]
  exact distinct

theorem mem_of_findholder (found : findholder held which key = some h) :
    h ∈ held ∧ h.key = (which, key) := by
  have matched := List.find?_some found
  exact ⟨List.mem_of_find?_eq_some found, key_eq_iff.mpr (of_decide_eq_true matched)⟩

theorem findholder_eq_none (missing : findholder held which key = none) (mem : h ∈ held) :
    h.key ≠ (which, key) := by
  intro found
  have none_matches := List.find?_eq_none.mp missing h mem
  exact none_matches (decide_eq_true (key_eq_iff.mp found))

end Patch

end Darwin.Netinfo.Index
