import Darwin.Netinfo.Server.Spec

/-!
# What a request does to the directories

Everything that a request can do to the directories, whatever becomes of its writes, as long as no
directory has the instance that marks a free id where the request looks for one.

## Main definitions

* `Effect` - what has changed, by request and reply

## Main results

* `perform_effect` - a request has such an effect
-/

namespace Darwin.Netinfo

open Store

open Function (update update_of_ne update_self)

variable {s s' t : Store} {w : Writes} {id : Id} {user : Option Name} {r : Request}

/-- No directory that the request could take for a free one has the instance `NI_INDEX_NULL`. -/
def Request.Clear (s : Store) : Request → Prop
  | .create _ _ _ target => ∀ i obj, s.dir i = some obj →
    (targetId target).object = niIndexNull ∨ (targetId target).object = i →
      obj.id.inst ≠ niIndexNull
  | _ => True

/-- The parent without the child. -/
def withoutChild (parent : Object) (child : ℕ) : Object :=
  { parent with children := parent.children.erase child }

/-- What a request and its reply say about the directories before and after. -/
inductive Effect (s t : Store) : Request → Except Status Reply → Prop
  | kept {r : Request} {status : Status} (dir : t.dir = s.dir) : Effect s t r (.error status)
  /-- The new directory could neither be entered with its parent nor removed. -/
  | orphaned {parentId : Id} {props : List Property} {place : ℕ} {target : Option Id}
      {status : Status} (child : Object) (fresh : s.dir child.id.object = none)
      (leaf : child.children = []) (leaked : child.id.object ∈ t.leaked)
      (dir : t.dir = update s.dir child.id.object (some child)) :
      Effect s t (.create parentId props place target) (.error status)
  | created {parentId : Id} {props : List Property} {place : ℕ} {target : Option Id}
      (parent : Object) (id : Id) (there : s.dir parentId.object = some parent)
      (own : parent.id = parentId) (fresh : s.dir id.object = none)
      (chosen : (targetId target).object = niIndexNull ∨
        id = ⟨(targetId target).object, unbump (targetId target).inst⟩)
      (dir : t.dir = update (update s.dir id.object (some (newChild id parent props).bumped))
        parentId.object (some (withChild parent id.object place).bumped)) :
      Effect s t (.create parentId props place target)
        (.ok ⟨⟨parentId.object, bump parentId.inst⟩, ⟨id.object, bump id.inst⟩,
          [.newnode (newChild id parent props).bumped place]⟩)
  | destroyed {parentId selfId : Id} {reply : Reply} (parent : Object)
      (there : s.dir parentId.object = some parent) (own : parent.id = parentId)
      (listed : selfId.object ∈ parent.children)
      (current : ∀ child, s.dir selfId.object = some child → child.id = selfId)
      (leaf : ∀ child, s.dir selfId.object = some child → child.children = [])
      (gone : t.dir selfId.object = none ∨
        t.dir selfId.object = s.dir selfId.object ∧ selfId.object ∈ t.leaked)
      (dir : t.dir = update
        (update s.dir parentId.object (some (withoutChild parent selfId.object).bumped))
        selfId.object (t.dir selfId.object))
      (self : reply.self = ⟨parentId.object, bump parentId.inst⟩) :
      Effect s t (.destroy parentId selfId) (.ok reply)
  | modified {r : Request} {reply : Reply} (obj : Object) (props : List Property)
      (there : s.dir r.self.object = some obj) (own : obj.id = r.self)
      (dir : t.dir = update s.dir r.self.object (some (Object.bumped { obj with props := props })))
      (self : reply.self = ⟨r.self.object, bump r.self.inst⟩)
      (modifies : r.modifies = true) : Effect s t r (.ok reply)

/-! ## Ids for which `file_idunalloc` failed -/

section Leaked

variable {fails : Option Status} {obj parent : Object} {props : List Property} {place : ℕ}

theorem leaked_objUnalloc : s.leaked ⊆ (s.objUnalloc fails obj).leaked := by
  intro i leaked
  cases fails with
  | none => exact leaked
  | some status => exact List.mem_cons_of_mem _ leaked

theorem leaked_createWith : s.leaked ⊆ (s.createWith w parent props id place).2.leaked := by
  have first := @leaked_objCommit s (newChild id parent props) w.child
  unfold createWith
  generalize s.objCommit w.child (newChild id parent props) = committed at *
  obtain ⟨r₁, child, s₁⟩ := committed
  rw [← first]
  cases r₁ with
  | error status => exact leaked_objUnalloc
  | ok _ =>
    have second := @leaked_objCommit s₁ (withChild parent child.id.object place) w.self
    dsimp only
    generalize s₁.objCommit w.self (withChild parent child.id.object place) = committed at *
    obtain ⟨r₂, parent', s₂⟩ := committed
    rw [← second]
    cases r₂ with
    | error status => exact leaked_objUnalloc
    | ok _ => exact fun _ leaked => leaked

theorem leaked_destroyWith {childId : Id} {child? : Option Object} :
    s.leaked ⊆ (s.destroyWith w parent childId child?).2.leaked := by
  unfold destroyWith
  split
  · exact fun _ leaked => leaked
  split
  · exact fun _ leaked => leaked
  have first := @leaked_objCommit s { parent with
    children := parent.children.erase childId.object } w.self
  generalize s.objCommit w.self { parent with
    children := parent.children.erase childId.object } = committed at *
  obtain ⟨r₁, parent', s₁⟩ := committed
  rw [← first]
  cases r₁ with
  | error status => exact fun _ leaked => leaked
  | ok _ =>
    cases child? with
    | none => exact fun _ leaked => leaked
    | some child => exact leaked_objUnalloc

theorem leaked_modify {edit : Object → Except Status (List Property × (Object → List ImCall))}
    (sound : Sound s) : s.leaked ⊆ (s.modify w id edit).2.leaked := by
  obtain ⟨-, quiet, -⟩ := @objLookupWrite_spec s id sound
  have found := quiet.leaked
  unfold Store.modify
  generalize s.objLookupWrite id = looked at *
  obtain ⟨r, s₁⟩ := looked
  cases r with
  | error status => exact found
  | ok obj =>
    dsimp only
    cases edit obj with
    | error status => exact found
    | ok change =>
      obtain ⟨props, calls⟩ := change
      have committed := @leaked_objCommit s₁ { obj with props := props } w.self
      dsimp only
      generalize s₁.objCommit w.self { obj with props := props } = answer at *
      obtain ⟨r₂, obj', s₂⟩ := answer
      cases r₂ with
      | error status => exact fun _ leaked => committed ▸ found leaked
      | ok _ => exact fun _ leaked => committed ▸ found leaked

end Leaked

/-! ## Requests -/

section Requests

/-- What any request keeps. -/
structure Keeps (s t : Store) : Prop where
  sound : Sound t
  leaked : s.leaked ⊆ t.leaked

theorem create_effect {parentId : Id} {props : List Property} {place : ℕ} {target : Option Id}
    (sound : Sound s) (clear : Request.Clear s (.create parentId props place target)) :
    Keeps s (s.create user w parentId props (targetId target) place).2 ∧
      Effect s (s.create user w parentId props (targetId target) place).2
        (.create parentId props place target)
        (s.create user w parentId props (targetId target) place).1 := by
  rcases @create_cases s w props place user parentId (targetId target) sound with
    ⟨status, failed, quiet, -⟩ | ⟨parent, id, s₂, quiet, -, there, own, -, uncached,
      allocated, chosen, -, created⟩
  · rw [failed]
    exact ⟨⟨quiet.sound sound, quiet.leaked⟩, .kept quiet.dir⟩
  subst own
  have sound₂ := quiet.sound sound
  have fresh : s.dir id.object = none := by
    cases found : s.dir id.object with
    | none => rfl
    | some obj =>
      have null := allocated.empty obj found
      by_cases any : (targetId target).object = niIndexNull
      · exact absurd null (clear _ obj found (.inl any))
      · rw [if_neg any] at chosen
        rw [chosen] at found
        exact absurd null (clear _ obj found (.inr rfl))
  have chosen' : (targetId target).object = niIndexNull ∨
      id = ⟨(targetId target).object, unbump (targetId target).inst⟩ := by
    by_cases any : (targetId target).object = niIndexNull
    · exact .inl any
    · rw [if_neg any] at chosen
      exact .inr chosen
  have there₂ : s₂.dir parent.id.object = some parent := by
    rw [quiet.dir]
    exact there
  have fresh₂ : s₂.dir id.object = none := by
    rw [quiet.dir]
    exact fresh
  obtain ⟨sound₃, -, frame, result⟩ := @createWith_spec s₂ w id parent props place sound₂ there₂
    uncached allocated.below fresh₂
  have leaked := @leaked_createWith s₂ w id parent props place
  rw [created]
  generalize s₂.createWith w parent props id place = answer at *
  obtain ⟨result?, t⟩ := answer
  refine ⟨⟨sound₃, fun _ old => leaked (quiet.leaked old)⟩, ?_⟩
  have elsewhere : ∀ j, j ≠ id.object → j ≠ parent.id.object → t.dir j = s.dir j := by
    intro j notChild notParent
    rw [(frame j notChild notParent).1, quiet.dir]
  cases result? with
  | ok reply =>
    obtain ⟨rfl, child, parent'⟩ := result
    refine .created parent id there rfl fresh chosen' ?_
    funext j
    by_cases isParent : j = parent.id.object
    · rw [isParent, update_self]
      exact parent'
    rw [update_of_ne isParent]
    by_cases isChild : j = id.object
    · rw [isChild, update_self]
      exact child
    · rw [update_of_ne isChild]
      exact elsewhere j isChild isParent
  | error status =>
    obtain ⟨parent', given⟩ := result
    cases given with
    | freed free stored =>
      apply Effect.kept
      funext j
      by_cases isParent : j = parent.id.object
      · rw [isParent, there]
        exact parent'
      by_cases isChild : j = id.object
      · rw [isChild, fresh]
        exact free
      · exact elsewhere j isChild isParent
    | orphan failed kept leaked =>
      refine .orphaned (newChild id parent props).bumped fresh rfl leaked ?_
      funext j
      by_cases isChild : j = id.object
      · have childId : (newChild id parent props).bumped.id.object = id.object := rfl
        rw [isChild, childId, update_self]
        exact kept
      have isChild' : j ≠ (newChild id parent props).bumped.id.object := isChild
      rw [update_of_ne isChild']
      by_cases isParent : j = parent.id.object
      · rw [isParent, there]
        exact parent'
      · exact elsewhere j isChild isParent

theorem destroy_effect {parentId selfId : Id} (sound : Sound s) :
    Keeps s (s.destroy user w parentId selfId).2 ∧
      Effect s (s.destroy user w parentId selfId).2 (.destroy parentId selfId)
        (s.destroy user w parentId selfId).1 := by
  rcases @destroy_cases s w user parentId selfId sound with
    ⟨status, failed, quiet, -⟩ | ⟨parent, s₂, quiet, there, own, -, -, uncached,
      uncached', current, destroyed⟩
  · rw [failed]
    exact ⟨⟨quiet.sound sound, quiet.leaked⟩, .kept quiet.dir⟩
  subst own
  have there₂ : s₂.dir parent.id.object = some parent := by
    rw [quiet.dir]
    exact there
  have child₂ : s₂.dir selfId.object = s.dir selfId.object := congrFun quiet.dir _
  obtain ⟨sound₃, result⟩ := @destroyWith_spec s₂ w parent selfId _ (quiet.sound sound) there₂
    uncached child₂ uncached'
  have leaked := @leaked_destroyWith s₂ w parent selfId (s.dir selfId.object)
  rw [destroyed]
  generalize s₂.destroyWith w parent selfId (s.dir selfId.object) = answer at *
  obtain ⟨result?, t⟩ := answer
  refine ⟨⟨sound₃, fun _ old => leaked (quiet.leaked old)⟩, ?_⟩
  cases result? with
  | error status => exact .kept (result.dir.trans quiet.dir)
  | ok reply =>
    obtain ⟨self, listed, -, other, updated, frame, leaf, -, gone⟩ := result
    have gone' : t.dir selfId.object = none ∨
        t.dir selfId.object = s.dir selfId.object ∧ selfId.object ∈ t.leaked := by
      rcases gone with gone | ⟨-, kept, leaked⟩
      · exact .inl gone
      · exact .inr ⟨kept, leaked⟩
    refine .destroyed parent there rfl listed current leaf gone' ?_ self
    funext j
    by_cases isChild : j = selfId.object
    · rw [isChild, update_self]
    rw [update_of_ne isChild]
    by_cases isParent : j = parent.id.object
    · rw [isParent, update_self]
      exact updated
    · rw [update_of_ne isParent, (frame j isParent isChild).1, quiet.dir]

/-- A request has one of these effects. -/
theorem perform_effect (sound : Sound s) (clear : r.Clear s) :
    Keeps s (s.perform user w r).2 ∧
      Effect s (s.perform user w r).2 r (s.perform user w r).1 := by
  rcases perform_eq_modify s user w r with ⟨id, props, place, target, rfl⟩ |
    ⟨parentId, selfId, rfl⟩ | ⟨⟨edit, same⟩, modifies⟩
  · exact create_effect sound clear
  · exact destroy_effect sound
  rw [same]
  obtain ⟨sound', result⟩ := @modify_spec s w r.self edit sound
  have leaked := @leaked_modify s w r.self edit sound
  generalize s.modify w r.self edit = answer at *
  obtain ⟨result?, t⟩ := answer
  refine ⟨⟨sound', leaked⟩, ?_⟩
  cases result? with
  | error status => exact .kept result.dir
  | ok reply =>
    obtain ⟨obj, props, calls, there, own, -, rfl, -, frame, updated⟩ := result
    refine .modified obj props there own ?_ rfl modifies
    funext j
    by_cases self : j = r.self.object
    · rw [self, update_self]
      exact updated
    · rw [update_of_ne self]
      exact (frame j self).1

end Requests

end Darwin.Netinfo
