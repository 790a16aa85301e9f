import Darwin.Lib.Runs
import Darwin.Netinfo.Server.Spec

/-!
# Instances only grow

The instance of a directory is what lets a client notice that somebody else has changed the
directory since it was read.  It is kept when the directory is destroyed and counted on when its id
is used again, so that it never repeats as long as it does not overflow.

## Main results

* `writes_never_lost` - over any sequence of requests, no two successful ones name the same version
  of a directory, and an id that is out of date is refused.
-/

namespace Darwin.Netinfo

open Darwin.Lib Option Store

variable {s s' s'' : Store} {w : Writes} {id : Id} {user : Option Name} {r : Request}

/-- `obj_commit` was called for an id at least as often as its instance says. -/
def Counted (s : Store) : Prop := ∀ i < s.highestId, s.stored i ≤ s.commits i

/-- Instances are at least as large as before, and larger where there is another directory. -/
structure Grows (s s' : Store) : Prop where
  highest : s.highestId ≤ s'.highestId
  stored : ∀ i < s.highestId, s.stored i ≤ s'.stored i
  changed : ∀ i < s.highestId, s'.dir i ≠ s.dir i → s'.dir i = none ∨ s.stored i < s'.stored i

section Grows

theorem Grows.trans (first : Grows s s') (second : Grows s' s'') : Grows s s'' where
  highest := Nat.le_trans first.highest second.highest
  stored := by
    intro i below
    have below' := Nat.lt_of_lt_of_le below first.highest
    exact Nat.le_trans (first.stored i below) (second.stored i below')
  changed := by
    intro i below differs
    have below' := Nat.lt_of_lt_of_le below first.highest
    by_cases later : s''.dir i = s'.dir i
    · rw [later] at differs ⊢
      rcases first.changed i below differs with gone | more
      · exact .inl gone
      · exact .inr (Nat.lt_of_lt_of_le more (second.stored i below'))
    · rcases second.changed i below' later with gone | more
      · exact .inl gone
      · exact .inr (Nat.lt_of_le_of_lt (first.stored i below) more)

theorem Same.grows (same : Same s s') : Grows s s' where
  highest := same.highest
  stored := fun i below => Nat.le_of_eq (same.stored i below).symm
  changed := by
    intro i _ differs
    rw [same.dir] at differs
    exact absurd rfl differs

theorem Same.counted (same : Same s s') (counted : Counted s) (zeroed : Zeroed s s')
    (commits : ∀ i, s.commits i ≤ s'.commits i) : Counted s' := by
  intro i below
  by_cases old : i < s.highestId
  · rw [same.stored i old]
    exact Nat.le_trans (counted i old) (commits i)
  · rw [zeroed i (Nat.le_of_not_lt old) below]
    exact Nat.zero_le _

theorem bump_eq {n : ℕ} (small : n + 1 < 2 ^ 32) : bump n = n + 1 := Nat.mod_eq_of_lt small

end Grows

/-! ## Commits -/

section Commits

variable {fails : Option Status} {obj parent : Object} {props : List Property} {place : ℕ}

theorem commits_objCommit : (s.objCommit fails obj).2.2.commits =
    Function.update s.commits obj.id.object (s.commits obj.id.object + 1) := by
  cases fails with
  | none => rfl
  | some status => rfl

theorem commits_objUnalloc : (s.objUnalloc fails obj).commits = s.commits := by
  cases fails with
  | none => rfl
  | some status => rfl

theorem le_commits_objCommit (i : ℕ) : s.commits i ≤ (s.objCommit fails obj).2.2.commits i := by
  rw [commits_objCommit]
  by_cases same : i = obj.id.object
  · subst same
    rw [Function.update_self]
    exact Nat.le_succ _
  · exact Nat.le_of_eq (Function.update_of_ne same _ _).symm

theorem lt_commits_objCommit :
    s.commits obj.id.object < (s.objCommit fails obj).2.2.commits obj.id.object := by
  rw [commits_objCommit, Function.update_self]
  exact Nat.lt_succ_self _

/-- The calls of `obj_commit` in `ni_create`. -/
theorem commits_createWith :
    (∀ i, s.commits i ≤ (s.createWith w parent props id place).2.commits i) ∧
      s.commits id.object < (s.createWith w parent props id place).2.commits id.object ∧
      ∀ reply, (s.createWith w parent props id place).1 = .ok reply → s.commits parent.id.object <
          (s.createWith w parent props id place).2.commits parent.id.object := by
  have first : s.commits id.object <
      (s.objCommit w.child (newChild id parent props)).2.2.commits id.object :=
    @lt_commits_objCommit s w.child (newChild id parent props)
  have more := @le_commits_objCommit s w.child (newChild id parent props)
  unfold createWith
  generalize s.objCommit w.child (newChild id parent props) = committed at *
  obtain ⟨r₁, child, s₁⟩ := committed
  cases r₁ with
  | error status =>
    simp only [commits_objUnalloc]
    exact ⟨more, first, fun reply ok => by cases ok⟩
  | ok _ =>
    have more₂ := @le_commits_objCommit s₁ w.self (withChild parent child.id.object place)
    have parent₂ : s₁.commits parent.id.object < (s₁.objCommit w.self
        (withChild parent child.id.object place)).2.2.commits parent.id.object :=
      @lt_commits_objCommit s₁ w.self (withChild parent child.id.object place)
    dsimp only at more first ⊢
    generalize s₁.objCommit w.self (withChild parent child.id.object place) = committed at *
    obtain ⟨r₂, parent', s₂⟩ := committed
    have both := fun i => Nat.le_trans (more i) (more₂ i)
    have first₂ := Nat.lt_of_lt_of_le first (more₂ id.object)
    cases r₂ with
    | error status =>
      simp only [commits_objUnalloc]
      exact ⟨both, first₂, fun reply ok => by cases ok⟩
    | ok _ => exact ⟨both, first₂, fun _ _ => Nat.lt_of_le_of_lt (more _) parent₂⟩

theorem highestId_objCommit : (s.objCommit fails obj).2.2.highestId = s.highestId := by
  cases fails with
  | none => rfl
  | some status => rfl

theorem highestId_objUnalloc : (s.objUnalloc fails obj).highestId = s.highestId := by
  cases fails with
  | none => rfl
  | some status => rfl

theorem highestId_destroyWith {childId : Id} {child? : Option Object} :
    (s.destroyWith w parent childId child?).2.highestId = s.highestId := by
  have highest := @highestId_objCommit s w.self { parent with
    children := parent.children.erase childId.object }
  unfold destroyWith
  split
  · rfl
  split
  · rfl
  generalize s.objCommit w.self { parent with
    children := parent.children.erase childId.object } = committed at *
  obtain ⟨r₁, parent', s₁⟩ := committed
  cases r₁ with
  | error status => exact highest
  | ok _ =>
    cases child? with
    | none => exact highest
    | some child => exact highestId_objUnalloc.trans highest

theorem highestId_modify {edit : Object → Except Status (List Property × (Object → List ImCall))}
    (sound : Sound s) : (s.modify w id edit).2.highestId = s.highestId := by
  obtain ⟨-, -, -, -, highest⟩ := @objLookupWrite_spec s id sound
  unfold Store.modify
  generalize s.objLookupWrite id = found at *
  obtain ⟨r, s₁⟩ := found
  cases r with
  | error status => exact highest
  | ok obj =>
    dsimp only
    cases edit obj with
    | error status => exact highest
    | ok change =>
      obtain ⟨props, calls⟩ := change
      have committed := @highestId_objCommit s₁ w.self { obj with props := props }
      dsimp only
      generalize s₁.objCommit w.self { obj with props := props } = answer at *
      obtain ⟨r₂, obj', s₂⟩ := answer
      cases r₂ with
      | error status => exact committed.trans highest
      | ok _ => exact committed.trans highest

/-- The call of `obj_commit` in `ni_destroy`. -/
theorem commits_destroyWith {childId : Id} {child? : Option Object} :
    (∀ i, s.commits i ≤ (s.destroyWith w parent childId child?).2.commits i) ∧
      ∀ reply, (s.destroyWith w parent childId child?).1 = .ok reply → s.commits parent.id.object <
          (s.destroyWith w parent childId child?).2.commits parent.id.object := by
  unfold destroyWith
  split
  · exact ⟨fun _ => Nat.le_refl _, fun reply ok => by cases ok⟩
  split
  · exact ⟨fun _ => Nat.le_refl _, fun reply ok => by cases ok⟩
  have more := @le_commits_objCommit s w.self { parent with
    children := parent.children.erase childId.object }
  have parent₁ := @lt_commits_objCommit s w.self { parent with
    children := parent.children.erase childId.object }
  generalize s.objCommit w.self { parent with
    children := parent.children.erase childId.object } = committed at *
  obtain ⟨r₁, parent', s₁⟩ := committed
  cases r₁ with
  | error status => exact ⟨more, fun reply ok => by cases ok⟩
  | ok _ =>
    cases child? with
    | none => exact ⟨more, fun _ _ => parent₁⟩
    | some child =>
      simp only [commits_objUnalloc]
      exact ⟨more, fun _ _ => parent₁⟩

/-- The call of `obj_commit` in the operations on properties. -/
theorem commits_modify {edit : Object → Except Status (List Property × (Object → List ImCall))}
    (sound : Sound s) :
    (∀ i, s.commits i ≤ (s.modify w id edit).2.commits i) ∧
      ∀ reply, (s.modify w id edit).1 = .ok reply →
        s.commits id.object < (s.modify w id edit).2.commits id.object := by
  obtain ⟨result, quiet, -⟩ := @objLookupWrite_spec s id sound
  unfold Store.modify
  generalize s.objLookupWrite id = found at *
  obtain ⟨r, s₁⟩ := found
  have same : ∀ i, s.commits i ≤ s₁.commits i := fun i =>
    Nat.le_of_eq (congrFun quiet.commits i).symm
  cases r with
  | error status => exact ⟨same, fun reply ok => by cases ok⟩
  | ok obj =>
    obtain ⟨-, rfl⟩ := lookupResult_eq_ok_iff.mp result.symm
    dsimp only
    cases edit obj with
    | error status => exact ⟨same, fun reply ok => by cases ok⟩
    | ok change =>
      obtain ⟨props, calls⟩ := change
      have more := @le_commits_objCommit s₁ w.self { obj with props := props }
      have self₁ := @lt_commits_objCommit s₁ w.self { obj with props := props }
      dsimp only
      generalize s₁.objCommit w.self { obj with props := props } = committed at *
      obtain ⟨r₂, obj', s₂⟩ := committed
      have both := fun i => Nat.le_trans (same i) (more i)
      cases r₂ with
      | error status => exact ⟨both, fun reply ok => by cases ok⟩
      | ok _ => exact ⟨both, fun _ _ => Nat.lt_of_le_of_lt (same _) self₁⟩

end Commits

/-! ## One request -/

section Requests

variable {parent : Object} {props : List Property} {place : ℕ}

/-- A change of one directory whose instance does not overflow. -/
theorem lt_stored_bumped {t : Store} {obj : Object} {commits : ℕ}
    (there : s.dir obj.id.object = some obj) (counted : Counted s)
    (called : s.commits obj.id.object < commits) (few : commits < 2 ^ 32)
    (written : t.stored obj.id.object = bump obj.id.inst) :
    s.stored obj.id.object < t.stored obj.id.object ∧ t.stored obj.id.object ≤ commits ∧
      obj.id.inst < t.stored obj.id.object := by
  have before : s.stored obj.id.object = obj.id.inst := stored_of_dir there
  have bound := counted obj.id.object (lt_of_dir there)
  rw [before] at bound
  have small : obj.id.inst + 1 < 2 ^ 32 := by omega
  rw [before, written, bump_eq small]
  omega

variable (sound : Sound s) (there : s.dir parent.id.object = some parent)
  (parentUncached : s.cache parent.id.object = none)

include sound there parentUncached

theorem createWith_grows (below : id.object < s.highestId) (empty : s.dir id.object = none)
    (kept : id.inst = s.stored id.object) (counted : Counted s)
    (few : ∀ i, (s.createWith w parent props id place).2.commits i < 2 ^ 32) :
    Counted (s.createWith w parent props id place).2 ∧
      Grows s (s.createWith w parent props id place).2 ∧
      ∀ reply, (s.createWith w parent props id place).1 = .ok reply →
        parent.id.inst < (s.createWith w parent props id place).2.stored parent.id.object := by
  obtain ⟨more, child_more, parent_more⟩ := @commits_createWith s w id parent props place
  obtain ⟨-, highest, frame, result⟩ := @createWith_spec s w id parent props place sound there
    parentUncached below empty
  generalize s.createWith w parent props id place = answer at *
  obtain ⟨r, t⟩ := answer
  simp only at more child_more parent_more highest frame result few ⊢
  have small : id.inst + 1 < 2 ^ 32 := by
    have bound := counted id.object below
    rw [← kept] at bound
    have last := few id.object
    omega
  have childBumped : bump id.inst = s.stored id.object + 1 := by rw [bump_eq small, kept]
  have parentBelow := lt_of_dir there
  have parentStored : s.stored parent.id.object = parent.id.inst := stored_of_dir there
  have parentBound := counted _ parentBelow
  -- the instances of the child and of the parent afterwards
  have child_after : s.stored id.object ≤ t.stored id.object ∧
      t.stored id.object ≤ s.stored id.object + 1 ∧
      (t.dir id.object = none ∨ s.stored id.object < t.stored id.object) := by
    cases r with
    | ok reply =>
      have after : t.stored id.object = bump id.inst := stored_of_dir result.2.1
      rw [after, childBumped]
      omega
    | error status =>
      rcases result.2 with ⟨free, stored⟩ | ⟨-, orphan, -⟩
      · have free' : t.dir id.object = none := free
        have stored' : t.stored id.object = bump id.inst ∨
          t.stored id.object = s.stored id.object := stored
        rw [childBumped] at stored'
        refine ⟨?_, ?_, .inl free'⟩
        · rcases stored' with new | old <;> omega
        · rcases stored' with new | old <;> omega
      · have after : t.stored id.object = bump id.inst :=
          stored_of_dir (i := id.object) orphan
        rw [after, childBumped]
        omega
  have parent_after : (∃ reply, r = .ok reply ∧ s.stored parent.id.object <
        t.stored parent.id.object ∧ t.stored parent.id.object ≤ t.commits parent.id.object ∧
        parent.id.inst < t.stored parent.id.object) ∨
      (∀ reply, r ≠ .ok reply) ∧ t.dir parent.id.object = s.dir parent.id.object ∧
        t.stored parent.id.object = s.stored parent.id.object := by
    cases r with
    | ok reply =>
      refine .inl ⟨reply, rfl, ?_⟩
      have written : t.stored parent.id.object = bump parent.id.inst := stored_of_dir result.2.2
      exact lt_stored_bumped there counted (parent_more reply rfl) (few _) written
    | error status =>
      obtain ⟨there', -⟩ := result
      refine .inr ⟨?_, there'.trans there.symm, ?_⟩
      · intro reply ok
        cases ok
      · rw [parentStored]
        exact stored_of_dir there'
  refine ⟨?_, ⟨Nat.le_of_eq highest.symm, ?_, ?_⟩, ?_⟩
  · intro j small
    rw [highest] at small
    by_cases isChild : j = id.object
    · subst isChild
      have bound := counted id.object small
      omega
    by_cases isParent : j = parent.id.object
    · subst isParent
      rcases parent_after with ⟨-, -, -, bound, -⟩ | ⟨-, -, same⟩
      · exact bound
      · rw [same]
        exact Nat.le_trans parentBound (more _)
    · rw [(frame j isChild isParent).2]
      exact Nat.le_trans (counted j small) (more j)
  · intro j small
    by_cases isChild : j = id.object
    · exact isChild ▸ child_after.1
    by_cases isParent : j = parent.id.object
    · subst isParent
      rcases parent_after with ⟨-, -, larger, -, -⟩ | ⟨-, -, same⟩
      · exact Nat.le_of_lt larger
      · exact Nat.le_of_eq same.symm
    · exact Nat.le_of_eq (frame j isChild isParent).2.symm
  · intro j small differs
    by_cases isChild : j = id.object
    · exact isChild ▸ child_after.2.2
    by_cases isParent : j = parent.id.object
    · subst isParent
      rcases parent_after with ⟨-, -, larger, -, -⟩ | ⟨-, same, -⟩
      · exact .inr larger
      · exact absurd same differs
    · exact absurd (frame j isChild isParent).1 differs
  · intro reply ok
    rcases parent_after with ⟨-, -, -, -, larger⟩ | ⟨failed, -, -⟩
    · exact larger
    · exact absurd ok (failed reply)

theorem destroyWith_grows {childId : Id} {child? : Option Object}
    (lookup : s.dir childId.object = child?) (uncached : s.cache childId.object = none)
    (counted : Counted s)
    (few : ∀ i, (s.destroyWith w parent childId child?).2.commits i < 2 ^ 32) :
    Counted (s.destroyWith w parent childId child?).2 ∧
      Grows s (s.destroyWith w parent childId child?).2 ∧
      ∀ reply, (s.destroyWith w parent childId child?).1 = .ok reply →
        parent.id.inst < (s.destroyWith w parent childId child?).2.stored parent.id.object := by
  obtain ⟨more, parent_more⟩ := @commits_destroyWith s w parent childId child?
  obtain ⟨-, result⟩ := @destroyWith_spec s w parent childId child? sound there parentUncached
    lookup uncached
  have highest := @highestId_destroyWith s w parent childId child?
  generalize s.destroyWith w parent childId child? = answer at *
  obtain ⟨r, t⟩ := answer
  cases r with
  | error status =>
    refine ⟨result.counted counted (Zeroed.of_highest highest) more, result.grows, ?_⟩
    intro reply ok
    cases ok
  | ok reply =>
    obtain ⟨-, -, -, other, updated, frame, -, kept, gone⟩ := result
    have written : t.stored parent.id.object = bump parent.id.inst := stored_of_dir updated
    obtain ⟨larger, bound, larger'⟩ :=
      lt_stored_bumped there counted (parent_more reply rfl) (few _) written
    refine ⟨?_, ⟨Nat.le_of_eq highest.symm, ?_, ?_⟩, fun _ _ => larger'⟩
    · intro j small
      rw [highest] at small
      by_cases isParent : j = parent.id.object
      · exact isParent ▸ bound
      by_cases isChild : j = childId.object
      · rw [isChild, kept]
        exact Nat.le_trans (counted _ (isChild ▸ small)) (more _)
      · rw [(frame j isParent isChild).2]
        exact Nat.le_trans (counted j small) (more j)
    · intro j small
      by_cases isParent : j = parent.id.object
      · exact isParent ▸ Nat.le_of_lt larger
      by_cases isChild : j = childId.object
      · exact isChild ▸ Nat.le_of_eq kept.symm
      · exact Nat.le_of_eq (frame j isParent isChild).2.symm
    · intro j small differs
      by_cases isParent : j = parent.id.object
      · exact .inr (isParent ▸ larger)
      by_cases isChild : j = childId.object
      · subst isChild
        rcases gone with gone | ⟨-, kept, -⟩
        · exact .inl gone
        · exact absurd (kept.trans lookup.symm) differs
      · exact absurd (frame j isParent isChild).1 differs

omit sound there parentUncached

theorem modify_grows {edit : Object → Except Status (List Property × (Object → List ImCall))}
    (sound : Sound s) (counted : Counted s)
    (few : ∀ i, (s.modify w id edit).2.commits i < 2 ^ 32) :
    Counted (s.modify w id edit).2 ∧ Grows s (s.modify w id edit).2 ∧
      ∀ reply, (s.modify w id edit).1 = .ok reply →
        (∃ obj, s.dir id.object = some obj ∧ obj.id = id) ∧
          id.inst < (s.modify w id edit).2.stored id.object := by
  obtain ⟨more, self_more⟩ := @commits_modify s w id edit sound
  obtain ⟨-, result⟩ := @modify_spec s w id edit sound
  have highest := @highestId_modify s w id edit sound
  generalize s.modify w id edit = answer at *
  obtain ⟨r, t⟩ := answer
  cases r with
  | error status =>
    refine ⟨result.counted counted (Zeroed.of_highest highest) more, result.grows, ?_⟩
    intro reply ok
    cases ok
  | ok reply =>
    obtain ⟨obj, props, calls, there, rfl, -, -, -, frame, updated⟩ := result
    have written : t.stored obj.id.object = bump obj.id.inst := stored_of_dir updated
    obtain ⟨larger, bound, larger'⟩ :=
      lt_stored_bumped there counted (self_more reply rfl) (few _) written
    refine ⟨?_, ⟨Nat.le_of_eq highest.symm, ?_, ?_⟩, fun _ _ => ⟨⟨obj, there, rfl⟩, larger'⟩⟩
    · intro j small
      rw [highest] at small
      by_cases self : j = obj.id.object
      · exact self ▸ bound
      · rw [(frame j self).2]
        exact Nat.le_trans (counted j small) (more j)
    · intro j small
      by_cases self : j = obj.id.object
      · exact self ▸ Nat.le_of_lt larger
      · exact Nat.le_of_eq (frame j self).2.symm
    · intro j small differs
      by_cases self : j = obj.id.object
      · exact .inr (self ▸ larger)
      · exact absurd (frame j self).1 differs

end Requests

/-! ## Any request -/

section Perform

/-- The client leaves the choice of the id of a new directory to the server. -/
def Request.untargeted : Request → Bool
  | .create _ _ _ target => target.isNone
  | _ => true

/-- What a request does to the instances, whether it succeeds or not. -/
structure Advances (s t : Store) : Prop where
  sound : Sound t
  counted : Counted t
  grows : Grows s t
  commits : ∀ i, s.commits i ≤ t.commits i

/-- An allocation does not find an id whose directory is in use: the instance that marks a free id
is never reached. -/
theorem dir_eq_none_of_allocated {t : Store} {n : ℕ} (counted : Counted s)
    (allocated : Allocated s t id) (called : s.commits id.object < n) (few : n < 2 ^ 32) :
    s.dir id.object = none := by
  cases there : s.dir id.object with
  | none => rfl
  | some obj =>
    have null : obj.id.inst = 2 ^ 32 - 1 := allocated.empty obj there
    have bound := counted _ (lt_of_dir there)
    rw [stored_of_dir there] at bound
    omega

theorem create_advances {parentId : Id} {props : List Property} {place n : ℕ} (sound : Sound s)
    (counted : Counted s)
    (few : ∀ i, (s.create user w parentId props ⟨niIndexNull, n⟩ place).2.commits i < 2 ^ 32) :
    Advances s (s.create user w parentId props ⟨niIndexNull, n⟩ place).2 ∧
      ∀ reply, (s.create user w parentId props ⟨niIndexNull, n⟩ place).1 = .ok reply →
        (∃ obj, s.dir parentId.object = some obj ∧ obj.id = parentId) ∧ parentId.inst <
            (s.create user w parentId props ⟨niIndexNull, n⟩ place).2.stored parentId.object := by
  rcases @create_cases s w props place user parentId ⟨niIndexNull, n⟩ sound with
    ⟨status, failed, quiet, zeroed⟩ | ⟨parent, id, s₂, quiet, zeroed, there, rfl, -, uncached,
      allocated, kept, -, created⟩
  · have commits : ∀ i, s.commits i ≤
        (s.create user w parentId props ⟨niIndexNull, n⟩ place).2.commits i := fun i =>
      Nat.le_of_eq (congrFun quiet.commits i).symm
    refine ⟨⟨quiet.sound sound, ?_, quiet.same.grows, commits⟩, ?_⟩
    · exact quiet.same.counted counted (zeroed rfl) commits
    · intro reply ok
      rw [failed] at ok
      cases ok
  · rw [created] at few ⊢
    rw [if_pos rfl] at kept
    have commits₂ : ∀ i, s.commits i ≤ s₂.commits i := fun i =>
      Nat.le_of_eq (congrFun quiet.commits i).symm
    obtain ⟨more, child_more, -⟩ := @commits_createWith s₂ w id parent props place
    have called : s.commits id.object < (s₂.createWith w parent props id place).2.commits id.object :=
      Nat.lt_of_le_of_lt (commits₂ _) child_more
    have empty := dir_eq_none_of_allocated counted allocated called (few _)
    rw [← quiet.dir] at empty
    have there₂ : s₂.dir parent.id.object = some parent := by
      rw [quiet.dir]
      exact there
    have counted₂ := quiet.same.counted counted (zeroed rfl) commits₂
    obtain ⟨counted₃, grows, larger⟩ := createWith_grows (quiet.sound sound) there₂ uncached
      allocated.below empty kept counted₂ few
    have sound₃ := (@createWith_spec s₂ w id parent props place (quiet.sound sound) there₂ uncached
      allocated.below empty).1
    refine ⟨⟨sound₃, counted₃, quiet.same.grows.trans grows, ?_⟩, ?_⟩
    · exact fun i => Nat.le_trans (commits₂ i) (more i)
    · exact fun reply ok => ⟨⟨parent, there, rfl⟩, larger reply ok⟩

theorem destroy_advances {parentId childId : Id} (sound : Sound s) (counted : Counted s)
    (few : ∀ i, (s.destroy user w parentId childId).2.commits i < 2 ^ 32) :
    Advances s (s.destroy user w parentId childId).2 ∧
      ∀ reply, (s.destroy user w parentId childId).1 = .ok reply →
        (∃ obj, s.dir parentId.object = some obj ∧ obj.id = parentId) ∧
          parentId.inst < (s.destroy user w parentId childId).2.stored parentId.object := by
  rcases @destroy_cases s w user parentId childId sound with
    ⟨status, failed, quiet, highest⟩ | ⟨parent, s₂, quiet, there, rfl, -, highest, uncached,
      uncached', -, destroyed⟩
  · have commits : ∀ i, s.commits i ≤ (s.destroy user w parentId childId).2.commits i := fun i =>
      Nat.le_of_eq (congrFun quiet.commits i).symm
    refine ⟨⟨quiet.sound sound, ?_, quiet.same.grows, commits⟩, ?_⟩
    · exact quiet.same.counted counted (Zeroed.of_highest highest) commits
    · intro reply ok
      rw [failed] at ok
      cases ok
  · rw [destroyed] at few ⊢
    have commits₂ : ∀ i, s.commits i ≤ s₂.commits i := fun i =>
      Nat.le_of_eq (congrFun quiet.commits i).symm
    have there₂ : s₂.dir parent.id.object = some parent := by
      rw [quiet.dir]
      exact there
    have child₂ : s₂.dir childId.object = s.dir childId.object := congrFun quiet.dir _
    have counted₂ := quiet.same.counted counted (Zeroed.of_highest highest) commits₂
    obtain ⟨counted₃, grows, larger⟩ := destroyWith_grows (quiet.sound sound) there₂ uncached child₂
      uncached' counted₂ few
    have sound₃ := (@destroyWith_spec s₂ w parent childId _ (quiet.sound sound) there₂ uncached
      child₂ uncached').1
    have more := (@commits_destroyWith s₂ w parent childId (s.dir childId.object)).1
    refine ⟨⟨sound₃, counted₃, quiet.same.grows.trans grows, ?_⟩, ?_⟩
    · exact fun i => Nat.le_trans (commits₂ i) (more i)
    · exact fun reply ok => ⟨⟨parent, there, rfl⟩, larger reply ok⟩

/-- A request that succeeds named the directory as it was, and leaves it with a larger instance. -/
theorem perform_advances (sound : Sound s) (counted : Counted s) (untargeted : r.untargeted = true)
    (few : ∀ i, (s.perform user w r).2.commits i < 2 ^ 32) :
    Advances s (s.perform user w r).2 ∧ ∀ reply, (s.perform user w r).1 = .ok reply →
      (∃ obj, s.dir r.self.object = some obj ∧ obj.id = r.self) ∧
        r.self.inst < (s.perform user w r).2.stored r.self.object := by
  rcases perform_eq_modify s user w r with ⟨id, props, place, target, rfl⟩ |
    ⟨parentId, selfId, rfl⟩ | ⟨⟨edit, same⟩, -⟩
  · cases target with
    | some target => cases untargeted
    | none => exact create_advances sound counted few
  · exact destroy_advances sound counted few
  · rw [same] at few ⊢
    obtain ⟨counted', grows, larger⟩ := modify_grows sound counted few
    exact ⟨⟨(modify_spec sound).1, counted', grows, (commits_modify sound).1⟩, larger⟩

end Perform

/-! ## All clients -/

section History

/-- The server, and the ids that the requests which succeeded have named, the last one first. -/
structure History where
  server : Server
  named : List Id

/-- What clients do, one at a time. -/
inductive Action where
  /-- A request, with what `validate_write` says of the client and what writing the files comes
  to. -/
  | request (auth : Except Status (Option Name)) (w : Writes) (r : Request)
  | read (i : ℕ)

/-- The next state. -/
def History.next (h : History) : Action → Option History
  | .request auth w r =>
    match h.server.serve auth w r with
    | (.ok _, server) => some ⟨server, r.self :: h.named⟩
    | (.error _, server) => some ⟨server, h.named⟩
  | .read i => some { h with server.store := (h.server.store.objLookupRead i).2 }

/-- No request chooses the id of a new directory. -/
def Action.untargeted : Action → Bool
  | .request _ _ r => r.untargeted
  | .read _ => true

/-- What is asked of a step: the server chooses the ids of new directories, and no id has been
committed `2 ^ 32` times. -/
def Ordinary (h : History) (a : Action) : Prop :=
  a.untargeted = true ∧ ∀ h', h.next a = some h' → ∀ i, h'.server.store.commits i < 2 ^ 32

/-- No directory was named twice as the same version of itself. -/
structure Ordered (h : History) : Prop where
  sound : Sound h.server.store
  counted : Counted h.server.store
  once : h.named.Nodup
  past : ∀ id ∈ h.named, id.object < h.server.store.highestId ∧
    id.inst < h.server.store.stored id.object

variable {h h' h'' : History} {a : Action}

theorem Ordered.advance {server : Server} (ordered : Ordered h)
    (advances : Advances h.server.store server.store) : Ordered ⟨server, h.named⟩ where
  sound := advances.sound
  counted := advances.counted
  once := ordered.once
  past := by
    intro id named
    obtain ⟨below, past⟩ := ordered.past id named
    exact ⟨Nat.lt_of_lt_of_le below advances.grows.highest,
      Nat.lt_of_lt_of_le past (advances.grows.stored _ below)⟩

theorem Advances.refl (sound : Sound s) (counted : Counted s) : Advances s s :=
  ⟨sound, counted, (Quiet.refl s).same.grows, fun _ => Nat.le_refl _⟩

theorem Advances.trans (first : Advances s s') (second : Advances s' s'') : Advances s s'' where
  sound := second.sound
  counted := second.counted
  grows := first.grows.trans second.grows
  commits := fun i => Nat.le_trans (first.commits i) (second.commits i)

theorem read_advances {i : ℕ} (sound : Sound s) (counted : Counted s) :
    Advances s (s.objLookupRead i).2 := by
  obtain ⟨-, sound', records, highest, commits, -⟩ := @objLookupRead_spec s i sound
  have same : Same s (s.objLookupRead i).2 := by
    refine ⟨Nat.le_of_eq highest.symm, dir_congr records highest, fun j _ => ?_⟩
    rw [stored, records]
    rfl
  have commits' : ∀ j, s.commits j ≤ (s.objLookupRead i).2.commits j := fun j =>
    Nat.le_of_eq (congrFun commits j).symm
  exact ⟨sound', same.counted counted (Zeroed.of_highest highest) commits', same.grows, commits'⟩

/-- One step of any client. -/
theorem Ordered.next (ordered : Ordered h) (untargeted : a.untargeted = true)
    (taken : h.next a = some h') (few : ∀ i, h'.server.store.commits i < 2 ^ 32) :
    Ordered h' ∧ Advances h.server.store h'.server.store := by
  cases a with
  | read i =>
    cases taken
    have advances := @read_advances h.server.store i ordered.sound ordered.counted
    exact ⟨ordered.advance advances, advances⟩
  | request auth w r =>
    cases auth with
    | error status =>
      cases taken
      exact ⟨ordered, Advances.refl ordered.sound ordered.counted⟩
    | ok user =>
      have performed := @perform_advances h.server.store w user r ordered.sound ordered.counted
        untargeted
      simp only [History.next, Server.serve] at taken
      generalize h.server.store.perform user w r = answer at *
      obtain ⟨result, store⟩ := answer
      cases result with
      | error status =>
        cases taken
        obtain ⟨advances, -⟩ := performed few
        exact ⟨ordered.advance advances, advances⟩
      | ok reply =>
        cases taken
        obtain ⟨advances, named⟩ := performed few
        obtain ⟨⟨obj, there, own⟩, larger⟩ := named reply rfl
        have below : r.self.object < store.highestId :=
          Nat.lt_of_lt_of_le (lt_of_dir there) advances.grows.highest
        obtain ⟨sound', counted', once', past'⟩ :=
          @Ordered.advance h ⟨store, r.checksum h.server.dbChecksum reply⟩ ordered advances
        refine ⟨⟨sound', counted', List.nodup_cons.mpr ⟨?_, once'⟩, ?_⟩, advances⟩
        · -- a version that was named before has been left behind
          intro before
          have past := (ordered.past _ before).2
          rw [stored_of_dir there, own] at past
          exact Nat.lt_irrefl _ past
        · intro id named
          rcases List.mem_cons.mp named with rfl | named
          · exact ⟨below, larger⟩
          · exact past' id named

/-- What holds after any run. -/
theorem Ordered.run (ordered : Ordered h) (run : Run History.next Ordinary h h') :
    Ordered h' ∧ Advances h.server.store h'.server.store := by
  refine @Run.invariant _ _ _ _ (fun t => Ordered t ∧ Advances h.server.store t.server.store) _ _
    run ?_ ?_
  · exact ⟨ordered, Advances.refl ordered.sound ordered.counted⟩
  · rintro t u a ⟨ordered', advances⟩ ⟨untargeted, few⟩ taken
    obtain ⟨ordered'', advances'⟩ := ordered'.next untargeted taken (few u taken)
    exact ⟨ordered'', advances.trans advances'⟩

/-- An id that was left behind is out of date, and stays so. -/
theorem lookupResult_outdated (past : id.inst < s.stored id.object) :
    s.lookupResult id = .error .stale ∨ s.lookupResult id = .error .badid := by
  unfold lookupResult
  cases there : s.dir id.object with
  | none => exact .inr rfl
  | some obj =>
    rw [stored_of_dir there] at past
    exact .inl (if_neg (Nat.ne_of_gt past))

/-- A directory that has changed has left its old id behind, or is gone for good. -/
theorem Grows.outdated {obj : Object} (changed : Grows s s') (later : Grows s' s'')
    (there : s.dir id.object = some obj) (own : obj.id = id) (differs : s'.dir id.object ≠ some obj) :
    s''.lookupResult id = .error .stale ∨ s''.lookupResult id = .error .badid := by
  have below := lt_of_dir there
  have below' := Nat.lt_of_lt_of_le below changed.highest
  have before : s.stored id.object = id.inst := by rw [stored_of_dir there, own]
  have kept := changed.stored _ below
  have grown := later.stored _ below'
  rcases changed.changed _ below (by rw [there]; exact differs) with gone | more
  · by_cases still : s''.dir id.object = none
    · right
      rw [lookupResult, still]
    have differs' : s''.dir id.object ≠ s'.dir id.object := by
      rw [gone]
      exact still
    rcases later.changed _ below' differs' with gone' | more
    · exact absurd gone' still
    · apply lookupResult_outdated
      omega
  · apply lookupResult_outdated
    omega

/-- A directory that is destroyed was named as it was. -/
theorem destroy_outdated {parentId : Id} {reply : Reply} (sound : Sound s)
    (outdated : s.lookupResult id = .error .stale ∨ s.lookupResult id = .error .badid)
    (ok : (s.destroy user w parentId id).1 = .ok reply) : s.dir id.object = none := by
  rcases @destroy_cases s w user parentId id sound with
    ⟨status, failed, -⟩ | ⟨parent, s₂, -, -, -, -, -, -, -, current, -⟩
  · rw [failed] at ok
    cases ok
  cases there : s.dir id.object with
  | none => rfl
  | some obj =>
    rw [lookupResult_eq_ok_iff.mpr ⟨there, current obj there⟩] at outdated
    rcases outdated with stale | badid
    · cases stale
    · cases badid

/-- Whatever clients do, the requests that succeed name different versions of directories; a
directory that has changed or is made again under its old id has a larger instance than before; and
a client that holds an id from before a change is told that it is out of date, or that there is no
such directory. -/
theorem writes_never_lost {server : Server} (sound : Sound server.store)
    (counted : Counted server.store) (run : Run History.next Ordinary ⟨server, []⟩ h)
    (changing : Run History.next Ordinary h h') (later : Run History.next Ordinary h' h'') :
    h''.named.Nodup ∧
    (∀ i < h'.server.store.highestId, h'.server.store.stored i ≤ h''.server.store.stored i ∧
      (h''.server.store.dir i ≠ h'.server.store.dir i → h''.server.store.dir i = none ∨
        h'.server.store.stored i < h''.server.store.stored i)) ∧
    ∀ id, (id ∈ h'.named ∨ ∃ obj, h.server.store.dir id.object = some obj ∧ obj.id = id ∧
        h'.server.store.dir id.object ≠ some obj) →
      ∀ user w, (∀ r, r.self = id → (h''.server.serve (.ok user) w r).1 = .error .stale ∨
          (h''.server.serve (.ok user) w r).1 = .error .badid) ∧
        (∀ parentId reply, (h''.server.serve (.ok user) w (.destroy parentId id)).1 = .ok reply →
          h''.server.store.dir id.object = none) := by
  have initial : Ordered ⟨server, []⟩ :=
    ⟨sound, counted, List.nodup_nil, fun id named => absurd named List.not_mem_nil⟩
  obtain ⟨ordered, -⟩ := initial.run run
  obtain ⟨ordered', advances'⟩ := ordered.run changing
  obtain ⟨ordered'', advances''⟩ := ordered'.run later
  refine ⟨ordered''.once, ?_, ?_⟩
  · intro i below
    exact ⟨advances''.grows.stored i below, advances''.grows.changed i below⟩
  intro id held user w
  have outdated : h''.server.store.lookupResult id = .error .stale ∨
      h''.server.store.lookupResult id = .error .badid := by
    rcases held with named | ⟨obj, there, own, differs⟩
    · obtain ⟨below, past⟩ := ordered'.past id named
      exact lookupResult_outdated (Nat.lt_of_lt_of_le past (advances''.grows.stored _ below))
    · exact advances'.grows.outdated advances''.grows there own differs
  constructor
  · rintro r rfl
    rw [serve_fst]
    rcases outdated with stale | badid
    · left
      exact (perform_stale ordered''.sound stale).1
    · right
      exact (perform_stale ordered''.sound badid).1
  · intro parentId reply ok
    rw [serve_fst] at ok
    exact destroy_outdated ordered''.sound outdated ok

/-- Two clients have read the root; one of them adds a property to it. -/
theorem writes_never_lost_twoClients :
    ∃ h, Run History.next Ordinary ⟨Server.new, []⟩ h ∧ h.named = [⟨0, 1⟩] ∧
      ∀ user w r, r.self = ⟨0, 1⟩ → (h.server.serve (.ok user) w r).1 = .error .stale ∨
        (h.server.serve (.ok user) w r).1 = .error .badid := by
  have sound : Sound Server.new.store := (root_spec Sound.empty).1
  have counted : Counted Server.new.store := by
    intro i below
    obtain rfl : i = 0 := Nat.lt_one_iff.mp below
    decide
  obtain ⟨h, added, named, commits⟩ : ∃ h, History.next ⟨Server.new, []⟩
      (.request (.ok (some accessUserSuper)) Writes.all (.createprop ⟨0, 1⟩ ⟨[97], []⟩ 0)) = some h ∧
      h.named = [⟨0, 1⟩] ∧ h.server.store.commits = Function.update (fun _ => 0) 0 2 := by
    refine ⟨_, rfl, rfl, ?_⟩
    funext i
    cases i with
    | zero => rfl
    | succ i => rfl
  have run : Run History.next Ordinary ⟨Server.new, []⟩ h := by
    refine .step .start ⟨rfl, fun h' taken i => ?_⟩ added
    obtain rfl : h = h' := some.inj (added.symm.trans taken)
    rw [commits]
    cases i with
    | zero => decide
    | succ i => exact Nat.two_pow_pos 32
  refine ⟨h, run, named, fun user w r own => ?_⟩
  have outdated := (writes_never_lost sound counted run .start .start).2.2 ⟨0, 1⟩
    (.inl (by rw [named]; exact List.mem_singleton_self _)) user w
  exact outdated.1 r own

end History

end Darwin.Netinfo
