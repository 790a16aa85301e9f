import Darwin.Netinfo.Index.Handle

/-!
# What a request changes, and what it tells the index manager

A request that succeeds makes calls of the index manager.  They say what has become of the children
and the properties.

## Main definitions

* `Edit` - the properties before and after a request, and the calls
* `Change` - the children and the properties before and after, and the calls

## Main results

* `request_change` - a request makes such a change
* `Edit.values` - the calls delete the values that have gone, and insert those that are new
-/

namespace Darwin.Netinfo.Index

open Function (update update_of_ne update_self)
open Darwin.Lib

variable {s t : Store} {w : Writes} {user : Option Name} {r : Request} {obj : Object}
  {key : Name} {i c : ℕ}

/-- The properties before and after a request on one directory, and the calls that tell the index
manager. -/
inductive Edit (obj : Object) : Request → List Property → List Property → List ImCall → Prop
  | write (id : Id) (old new : List Property) :
    Edit obj (.write id new) old new [.destroyAll obj old, .createAll obj new]
  | createprop (id : Id) (place : ℕ) (before after : List Property) (prop : Property) :
    Edit obj (.createprop id prop place) (before ++ after) (before ++ prop :: after)
      [.createList obj prop.name prop.values]
  | destroyprop (id : Id) (before after : List Property) (prop : Property) :
    Edit obj (.destroyprop id before.length) (before ++ prop :: after) (before ++ after)
      [.destroyList obj prop.name prop.values]
  | renameprop (id : Id) (before after : List Property) (prop : Property) (name : Name) :
    Edit obj (.renameprop id before.length name) (before ++ prop :: after)
      (before ++ { prop with name := name } :: after)
      [.destroyList obj prop.name prop.values, .createList obj name prop.values]
  | writeprop (id : Id) (before after : List Property) (prop : Property) (values : List Name) :
    Edit obj (.writeprop id before.length values) (before ++ prop :: after)
      (before ++ { prop with values := values } :: after)
      [.destroyList obj prop.name prop.values, .createList obj prop.name values]
  | createname (id : Id) (before after : List Property) (prop : Property) (name : Name)
      (place : ℕ) :
    Edit obj (.createname id before.length name place) (before ++ prop :: after)
      (before ++ { prop with values := insertAt prop.values place name } :: after)
      [.create obj prop.name name place]
  | destroyname (id : Id) (before after : List Property) (prop : Property) (nameIndex : ℕ)
      (saved : Name) (there : prop.values[nameIndex]? = some saved) :
    Edit obj (.destroyname id before.length nameIndex) (before ++ prop :: after)
      (before ++ { prop with values := prop.values.eraseIdx nameIndex } :: after)
      [.destroy obj prop.name saved nameIndex]
  | writename (id : Id) (before after : List Property) (prop : Property) (nameIndex : ℕ)
      (name saved : Name) (there : prop.values[nameIndex]? = some saved) :
    Edit obj (.writename id before.length nameIndex name) (before ++ prop :: after)
      (before ++ { prop with values := prop.values.set nameIndex name } :: after)
      [.destroy obj prop.name saved nameIndex, .create obj prop.name name nameIndex]

section Edits

theorem split_at {α : Type*} {l : List α} {a : α} (there : l[i]? = some a) :
    ∃ before after, l = before ++ a :: after ∧ before.length = i := by
  obtain ⟨less, same⟩ := List.getElem?_eq_some_iff.mp there
  refine ⟨l.take i, l.drop (i + 1), ?_, List.length_take_of_le less.le⟩
  rw [← same, ← List.drop_eq_getElem_cons less, List.take_append_drop]

theorem set_split {α : Type*} {before after : List α} {a b : α} :
    (before ++ a :: after).set before.length b = before ++ b :: after := by
  rw [List.set_append_right _ _ le_rfl, Nat.sub_self, List.set_cons_zero]

theorem eraseIdx_split {α : Type*} {before after : List α} {a : α} :
    (before ++ a :: after).eraseIdx before.length = before ++ after := by
  rw [List.eraseIdx_append_of_length_le le_rfl, Nat.sub_self, List.eraseIdx_cons_zero]

/-- The access lists of the directory allow the user to make these its properties. -/
def Allowed (user : Option Name) (obj : Object) (props : List Property) : Prop :=
  validateDir user obj = true ∨ ∃ i prop values, obj.props[i]? = some prop ∧
    validateName user obj prop = true ∧ props = obj.props.set i { prop with values := values }

theorem Allowed.dir {props : List Property} (valid : ¬(!validateDir user obj) = true) :
    Allowed user obj props :=
  .inl (by simpa using valid)

theorem Allowed.values {prop : Property} {values : List Name}
    (valid : ¬(!(validateDir user obj || validateName user obj prop)) = true)
    (there : obj.props[i]? = some prop) :
    Allowed user obj (obj.props.set i { prop with values := values }) := by
  rw [Bool.not_eq_true', Bool.not_eq_false, Bool.or_eq_true] at valid
  exact valid.imp id fun named => ⟨i, prop, values, there, named, rfl⟩

/-- The operations on properties are such edits. -/
theorem perform_edit (modifies : r.modifies = true) :
    ∃ edit, s.perform user w r = s.modify w r.self edit ∧ ∀ obj props calls,
      edit obj = .ok (props, calls) → Allowed user obj props ∧
        ∀ obj', Edit obj' r obj.props props (calls obj') := by
  cases r with
  | create id props place target => cases modifies
  | destroy parentId selfId => cases modifies
  | write id new =>
    refine ⟨_, rfl, fun obj props calls edited => ?_⟩
    split at edited
    · cases edited
    · rename_i valid
      cases edited
      exact ⟨.dir valid, fun _ => .write id obj.props new⟩
  | createprop id prop place =>
    refine ⟨_, rfl, fun obj props calls edited => ?_⟩
    split at edited
    · cases edited
    rename_i valid
    cases edited
    refine ⟨.dir valid, fun obj' => ?_⟩
    have edit := @Edit.createprop obj' id place (obj.props.take place) (obj.props.drop place) prop
    rw [List.take_append_drop] at edit
    exact edit
  | destroyprop id propIndex =>
    refine ⟨_, rfl, fun obj props calls edited => ?_⟩
    split at edited
    · cases edited
    rename_i prop there
    split at edited
    · cases edited
    rename_i valid
    cases edited
    refine ⟨.dir valid, fun _ => ?_⟩
    obtain ⟨before, after, same, rfl⟩ := split_at there
    rw [same, eraseIdx_split]
    exact .destroyprop id before after prop
  | renameprop id propIndex name =>
    refine ⟨_, rfl, fun obj props calls edited => ?_⟩
    split at edited
    · cases edited
    rename_i prop there
    split at edited
    · cases edited
    rename_i valid
    cases edited
    refine ⟨.dir valid, fun _ => ?_⟩
    obtain ⟨before, after, same, rfl⟩ := split_at there
    rw [same, set_split]
    exact .renameprop id before after prop name
  | writeprop id propIndex values =>
    refine ⟨_, rfl, fun obj props calls edited => ?_⟩
    split at edited
    · cases edited
    rename_i prop there
    split at edited
    · cases edited
    rename_i valid
    cases edited
    refine ⟨.values valid there, fun _ => ?_⟩
    obtain ⟨before, after, same, rfl⟩ := split_at there
    rw [same, set_split]
    exact .writeprop id before after prop values
  | createname id propIndex name place =>
    refine ⟨_, rfl, fun obj props calls edited => ?_⟩
    split at edited
    · cases edited
    rename_i prop there
    split at edited
    · cases edited
    rename_i valid
    cases edited
    refine ⟨.values valid there, fun _ => ?_⟩
    obtain ⟨before, after, same, rfl⟩ := split_at there
    rw [same, set_split]
    exact .createname id before after prop name place
  | destroyname id propIndex nameIndex =>
    refine ⟨_, rfl, fun obj props calls edited => ?_⟩
    split at edited
    · cases edited
    rename_i prop there
    split at edited
    · cases edited
    rename_i saved value
    split at edited
    · cases edited
    rename_i valid
    cases edited
    refine ⟨.values valid there, fun _ => ?_⟩
    obtain ⟨before, after, same, rfl⟩ := split_at there
    rw [same, set_split]
    exact .destroyname id before after prop nameIndex saved value
  | writename id propIndex nameIndex name =>
    refine ⟨_, rfl, fun obj props calls edited => ?_⟩
    split at edited
    · cases edited
    rename_i prop there
    split at edited
    · cases edited
    rename_i saved value
    split at edited
    · cases edited
    rename_i valid
    cases edited
    refine ⟨.values valid there, fun _ => ?_⟩
    obtain ⟨before, after, same, rfl⟩ := split_at there
    rw [same, set_split]
    exact .writename id before after prop nameIndex name saved value

end Edits

/-! ## Changes -/

/-- The children and the properties before and after a request, and the calls of the index
manager. -/
inductive Change (s t : Store) (r : Request) : List ImCall → Prop
  | kept (children : childrenOf t = childrenOf s)
      (props : ∀ i, ∀ c ∈ childrenOf s i, propsOf t c = propsOf s c) : Change s t r []
  | created (child : Object) (place : ℕ) (parentId : Id) (target : Option Id)
      (request : r = .create parentId child.props place target)
      (parent : child.parent = parentId.object)
      (fresh : ∀ i, child.id.object ∉ childrenOf s i)
      (children : childrenOf t = update (childrenOf s) child.parent
        (insertAt (childrenOf s child.parent) place child.id.object))
      (props : propsOf t = update (propsOf s) child.id.object child.props) :
      Change s t r [.newnode child place]
  | destroyed (child : Object) (parentId : Id) (request : r = .destroy parentId child.id)
      (there : s.dir child.id.object = some child)
      (listed : child.id.object ∈ childrenOf s child.parent)
      (only : ∀ i, child.id.object ∈ childrenOf s i → i = child.parent)
      (children : childrenOf t = update (childrenOf s) child.parent
        ((childrenOf s child.parent).erase child.id.object))
      (props : ∀ c, c ≠ child.id.object → propsOf t c = propsOf s c) :
      Change s t r [.remove child]
  | modified (obj obj' : Object) (calls : List ImCall) (id : obj'.id.object = obj.id.object)
      (parent : obj'.parent = obj.parent) (self : r.self = obj.id)
      (there : s.dir obj.id.object = some obj)
      (only : ∀ i, obj.id.object ∈ childrenOf s i → i = obj.parent)
      (edit : Edit obj' r obj.props obj'.props calls)
      (children : childrenOf t = childrenOf s)
      (props : propsOf t = update (propsOf s) obj.id.object obj'.props) :
      Change s t r calls

section Changes

variable {result : Except Status Reply}

/-- The calls of a request that succeeds. -/
def callsOf : Except Status Reply → List ImCall
  | .ok reply => reply.calls
  | .error _ => []

theorem childrenOf_of_leaf (leaf : ∀ child, s.dir i = some child → child.children = []) :
    childrenOf s i = [] := by
  unfold childrenOf
  cases there : s.dir i with
  | none => rfl
  | some child => exact leaf child there

theorem childrenOf_of_none (missing : s.dir i = none) : childrenOf s i = [] := by
  rw [childrenOf, missing]
  rfl

/-- A directory that is in a list is there, and the lister is its parent. -/
theorem dir_of_mem (tree : s.Tree) (mem : c ∈ childrenOf s i) :
    ∃ child, s.dir c = some child ∧ child.parent = i := tree.child i c (lists_iff.mpr mem)

theorem not_mem_childrenOf (tree : s.Tree) (missing : s.dir c = none) (i : ℕ) :
    c ∉ childrenOf s i := by
  intro mem
  obtain ⟨child, there, -⟩ := dir_of_mem tree mem
  cases missing.symm.trans there

variable {parentId selfId : Id} {reply : Reply}

theorem Effect.create_change {props : List Property} {place : ℕ}
    {target : Option Id} (effect : Effect s t (.create parentId props place target) result)
    (tree : s.Tree) : Change s t (.create parentId props place target) (callsOf result) := by
  cases effect with
  | kept dir =>
    refine .kept ?_ fun i c _ => ?_
    · funext j
      rw [childrenOf, childrenOf, dir]
    · rw [propsOf, propsOf, dir]
  | orphaned child fresh leaf leaked dir =>
    refine .kept ?_ fun i c mem => ?_
    · funext j
      rw [childrenOf, dir]
      by_cases here : j = child.id.object
      · rw [here, update_self, childrenOf_of_none fresh]
        exact leaf
      · rw [update_of_ne here, childrenOf]
    · rw [propsOf, propsOf, dir, update_of_ne]
      rintro rfl
      exact not_mem_childrenOf tree fresh i mem
  | created parent id there own fresh chosen dir =>
    subst own
    have other : parent.id.object ≠ id.object := by
      intro same
      rw [same, fresh] at there
      cases there
    have absent : id.object ∉ parent.children := by
      rw [← childrenOf_eq there]
      exact not_mem_childrenOf tree fresh _
    have entered := @children_withChild parent id.object place absent
    obtain ⟨child, made, childId, childParent, childProps, leaf⟩ : ∃ child : Object,
        child = (Store.newChild id parent props).bumped ∧ child.id.object = id.object ∧
          child.parent = parent.id.object ∧ child.props = props ∧ child.children = [] :=
      ⟨_, rfl, rfl, rfl, rfl, rfl⟩
    rw [← made] at dir
    change Change s t _ [.newnode (Store.newChild id parent props).bumped place]
    rw [← made]
    refine .created child place parent.id target (by rw [childProps]) childParent ?_ ?_ ?_
    · rw [childId]
      exact not_mem_childrenOf tree fresh
    · rw [childId, childParent]
      funext j
      rw [childrenOf, dir]
      by_cases isParent : j = parent.id.object
      · rw [isParent, update_self, update_self, childrenOf_eq there, ← entered]
        rfl
      rw [update_of_ne isParent, update_of_ne isParent]
      by_cases isChild : j = id.object
      · rw [isChild, update_self, childrenOf_of_none fresh]
        exact leaf
      · rw [update_of_ne isChild, childrenOf]
    · rw [childId]
      funext j
      rw [propsOf, dir]
      by_cases isParent : j = parent.id.object
      · rw [isParent, update_self, update_of_ne other, propsOf_eq there]
        rfl
      rw [update_of_ne isParent]
      by_cases isChild : j = id.object
      · rw [isChild, update_self, update_self]
        rfl
      · rw [update_of_ne isChild, update_of_ne isChild, propsOf]
  | modified obj props there own dir self modifies => cases modifies

/-- What `ni_destroy` tells the index manager. -/
theorem calls_destroyWith {parent child : Object} {childId : Id}
    (done : (s.destroyWith w parent childId (some child)).1 = .ok reply) :
    reply.calls = [.remove child] := by
  unfold Store.destroyWith at done
  split at done
  · cases done
  split at done
  · cases done
  generalize s.objCommit w.self { parent with
    children := parent.children.erase childId.object } = committed at done
  obtain ⟨r, parent', s₁⟩ := committed
  cases r with
  | error status => cases done
  | ok _ =>
    injection done with same
    rw [← same]

theorem calls_destroy {child : Object} (sound : Sound s) (there : s.dir selfId.object = some child)
    (done : (s.destroy user w parentId selfId).1 = .ok reply) : reply.calls = [.remove child] := by
  rcases @destroy_cases s w user parentId selfId sound with
    ⟨status, failed, -, -⟩ | ⟨parent, s₂, -, -, -, -, -, -, -, -, destroyed⟩
  · rw [failed] at done
    cases done
  · rw [destroyed, there] at done
    exact calls_destroyWith done

theorem Effect.destroy_change
    (effect : Effect s t (.destroy parentId selfId) result) (tree : s.Tree)
    (calls : ∀ reply child, result = .ok reply → s.dir selfId.object = some child →
      reply.calls = [.remove child]) :
    Change s t (.destroy parentId selfId) (callsOf result) := by
  cases effect with
  | kept dir =>
    refine .kept ?_ fun i c _ => ?_
    · funext j
      rw [childrenOf, childrenOf, dir]
    · rw [propsOf, propsOf, dir]
  | @destroyed _ _ reply parent there own listed current leaf gone dir self =>
    subst own
    have mem : selfId.object ∈ childrenOf s parent.id.object := by
      rw [childrenOf_eq there]
      exact listed
    obtain ⟨child, child_there, child_parent⟩ := dir_of_mem tree mem
    obtain rfl := current child child_there
    have other : child.id.object ≠ parent.id.object := by
      intro same
      rw [same, there] at child_there
      cases child_there
      rw [leaf parent (by rw [same]; exact there)] at listed
      cases listed
    have told : callsOf (.ok reply) = [.remove child] := calls reply child rfl child_there
    rw [told]
    rw [← child_parent] at mem
    refine .destroyed child parent.id rfl child_there mem (fun i mem' => ?_) ?_ fun c differs => ?_
    · obtain ⟨child', there', parent'⟩ := dir_of_mem tree mem'
      cases child_there.symm.trans there'
      exact parent'.symm
    · have none_left : ((t.dir child.id.object).map (·.children)).getD [] = [] := by
        rcases gone with gone | ⟨kept, -⟩
        · rw [gone]
          rfl
        · rw [kept, child_there]
          exact leaf child child_there
      funext j
      rw [childrenOf, child_parent]
      by_cases isChild : j = child.id.object
      · rw [isChild, none_left, update_of_ne other, childrenOf_of_leaf leaf]
      rw [dir, update_of_ne isChild]
      by_cases isParent : j = parent.id.object
      · rw [isParent, update_self, update_self, childrenOf_eq there]
        rfl
      · rw [update_of_ne isParent, update_of_ne isParent, childrenOf]
    · rw [propsOf, dir, update_of_ne differs]
      by_cases isParent : c = parent.id.object
      · rw [isParent, update_self, propsOf_eq there]
        rfl
      · rw [update_of_ne isParent, propsOf]
  | modified obj props there own dir self modifies => cases modifies

theorem modify_change (sound : Sound s) (tree : s.Tree) (modifies : r.modifies = true) :
    Change s (s.perform user w r).2 r (callsOf (s.perform user w r).1) := by
  obtain ⟨edit, performed, edits⟩ := @perform_edit s w user r modifies
  obtain ⟨-, result⟩ := @modify_spec s w r.self edit sound
  rw [performed]
  generalize s.modify w r.self edit = answer at *
  obtain ⟨result?, t⟩ := answer
  cases result? with
  | error status =>
    have dir := result.dir
    refine .kept ?_ fun i c _ => ?_
    · funext j
      rw [childrenOf, childrenOf, dir]
    · rw [propsOf, propsOf, dir]
  | ok reply =>
    obtain ⟨obj, props, calls, there, own, edited, rfl, -, frame, updated⟩ := result
    have edit := (edits obj props calls edited).2 (Object.bumped { obj with props := props })
    rw [← own] at there frame updated
    refine .modified obj (Object.bumped { obj with props := props }) _ rfl rfl own.symm there
      (fun i mem => ?_) edit ?_ ?_
    · obtain ⟨child', there', parent'⟩ := dir_of_mem tree mem
      cases there.symm.trans there'
      exact parent'.symm
    · funext j
      by_cases self : j = obj.id.object
      · rw [self, childrenOf_eq updated, childrenOf_eq there]
        rfl
      · rw [childrenOf, childrenOf, (frame j self).1]
    · funext j
      by_cases self : j = obj.id.object
      · rw [self, update_self, propsOf_eq updated]
      · rw [update_of_ne self, propsOf, propsOf, (frame j self).1]

/-- A request makes a change, and tells the index manager. -/
theorem request_change (sound : Sound s) (tree : s.Tree) (clear : r.Clear s) :
    Keeps s (s.perform user w r).2 ∧ (s.perform user w r).2.Tree ∧
      Change s (s.perform user w r).2 r (callsOf (s.perform user w r).1) := by
  obtain ⟨keeps, effect⟩ := @perform_effect s w user r sound clear
  obtain ⟨tree', -⟩ := effect.tree keeps tree
  refine ⟨keeps, tree', ?_⟩
  rcases perform_eq_modify s user w r with ⟨parentId, props, place, target, rfl⟩ |
    ⟨parentId, selfId, rfl⟩ | ⟨-, modifies⟩
  · exact Effect.create_change effect tree
  · exact Effect.destroy_change effect tree fun reply child done there =>
      calls_destroy sound there done
  · exact modify_change sound tree modifies

end Changes

end Darwin.Netinfo.Index
