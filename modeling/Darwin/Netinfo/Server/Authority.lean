import Darwin.Netinfo.Index.Change

/-!
# Who may change a directory

The access lists of a directory bind every sequence of requests that one user makes, until the
directory is destroyed through its parent.

## Main definitions

* `Confined` - the access lists give a user no authority over the directory itself
* `Unchanged` - what such a user cannot change

## Main results

* `authority_confined` - it stays unchanged, whatever the user asks for
* `authority_recreated` - unless it is destroyed and its id taken by another
-/

namespace Darwin.Netinfo

open Function (update_of_ne)
open Index (split_at set_split Allowed perform_edit)

variable {s : Store} {w : Writes} {user : Option Name} {r : Request} {obj obj' : Object}
  {key : Name} {d : ℕ}

/-- The first property of this name lists the user or anybody. -/
def Lists (user : Option Name) (obj : Object) (key : Name) : Prop :=
  ∃ prop, propFind obj.props key = some prop ∧ inAccessList user prop.values = true

/-- The user is not `root`, may not change the directory, and may change no access list of it. -/
structure Confined (user : Option Name) (obj : Object) : Prop where
  ordinary : user ≠ some accessUserSuper
  dir : ¬Lists user obj accessDirKey
  lists : ∀ prop ∈ obj.props, accessDirKey <+: prop.name →
    ¬Lists user obj (accessNamePrefix ++ prop.name)

/-- The children are the same, and so are the properties, up to the values of those that the user
may change. -/
structure Unchanged (user : Option Name) (obj obj' : Object) : Prop where
  children : obj'.children = obj.children
  names : obj'.props.map (·.name) = obj.props.map (·.name)
  values : ∀ (i : ℕ) (prop : Property), obj.props[i]? = some prop →
    ¬Lists user obj (accessNamePrefix ++ prop.name) → obj'.props[i]? = some prop

/-- The database after some requests of one user. -/
def Store.performAll (user : Option Name) (s : Store) (calls : List (Writes × Request)) : Store :=
  calls.foldl (fun s call => (s.perform user call.1 call.2).2) s

/-- No request takes a directory for a free id, and none that succeeds destroys this one. -/
def Undisturbed (user : Option Name) (d : ℕ) : Store → List (Writes × Request) → Prop
  | _, [] => True
  | s, (w, r) :: calls => r.Clear s ∧ (∀ parentId selfId reply, r = .destroy parentId selfId →
        (s.perform user w r).1 = .ok reply → selfId.object ≠ d) ∧
      Undisturbed user d (s.perform user w r).2 calls

/-! ## One request -/

section Step

theorem lists_of_validate (ordinary : user ≠ some accessUserSuper)
    (valid : validate user obj key = true) : Lists user obj key := by
  rw [validate, Bool.or_eq_true, beq_iff_eq, or_iff_right ordinary] at valid
  cases found : propFind obj.props key with
  | none => simp [found] at valid
  | some prop => exact ⟨prop, found, by simpa [found] using valid⟩

theorem key_of_access {name : Name} : accessDirKey <+: accessNamePrefix ++ name :=
  ⟨[95] ++ name, (List.append_assoc ..).symm⟩

/-- The values of a property decide nothing about the properties of another name. -/
theorem lists_set {prop : Property} {values : List Name} {i : ℕ}
    (there : obj.props[i]? = some prop) (other : prop.name ≠ key) :
    Lists user { obj with props := obj.props.set i { prop with values := values } } key ↔
      Lists user obj key := by
  obtain ⟨before, after, same, rfl⟩ := split_at there
  simp only [Lists, propFind, same, set_split, List.find?_append, List.find?_cons, other,
    decide_false]

/-- What a request of a confined user leaves of a directory. -/
structure Leaves (user : Option Name) (obj obj' : Object) : Prop where
  unchanged : Unchanged user obj obj'
  lists : ∀ key, accessDirKey <+: key → (Lists user obj' key ↔ Lists user obj key)

theorem Leaves.refl : Leaves user obj obj :=
  ⟨⟨rfl, rfl, fun _ _ there _ => there⟩, fun _ _ => Iff.rfl⟩

/-- An edit that is allowed is one of values, and not of an access list. -/
theorem Leaves.edit {props : List Property} (confined : Confined user obj)
    (allowed : Allowed user obj props) :
    Leaves user obj (Object.bumped { obj with props := props }) := by
  rcases allowed with all | ⟨i, prop, values, there, named, rfl⟩
  · exact absurd (lists_of_validate confined.ordinary all) confined.dir
  have listed := lists_of_validate confined.ordinary named
  have ordinary : ¬accessDirKey <+: prop.name := fun access =>
    confined.lists prop (List.mem_of_getElem? there) access listed
  refine ⟨⟨rfl, ?_, fun j other there' denied => ?_⟩, fun key access => ?_⟩
  · obtain ⟨before, after, same, rfl⟩ := split_at there
    simp [Object.bumped, same]
  · have apart : i ≠ j := by
      rintro rfl
      cases there.symm.trans there'
      exact denied listed
    exact (List.getElem?_set_ne apart).trans there'
  · exact lists_set there fun same => ordinary (same ▸ access)

theorem Leaves.confined (leaves : Leaves user obj obj') (confined : Confined user obj) :
    Confined user obj' where
  ordinary := confined.ordinary
  dir := (leaves.lists _ (List.prefix_refl _)).not.mpr confined.dir
  lists prop mem access := by
    have named := leaves.unchanged.names ▸ List.mem_map_of_mem mem
    obtain ⟨old, there, same⟩ := List.mem_map.mp named
    rw [leaves.lists _ key_of_access, ← same]
    exact confined.lists old there (same ▸ access)

theorem Leaves.unchanged_trans {obj'' : Object} (leaves : Leaves user obj obj')
    (later : Unchanged user obj' obj'') : Unchanged user obj obj'' where
  children := later.children.trans leaves.unchanged.children
  names := later.names.trans leaves.unchanged.names
  values i prop there denied :=
    later.values i prop (leaves.unchanged.values i prop there denied)
      ((leaves.lists _ key_of_access).not.mpr denied)

/-- Directories are created in and destroyed from those that the user may change. -/
theorem validateDir_of_ok {reply : Reply} (sound : Sound s) (there : s.dir r.self.object = some obj)
    (done : (s.perform user w r).1 = .ok reply) (modifies : r.modifies = false) :
    validateDir user obj = true := by
  cases r with
  | create id props place target =>
    rcases @create_cases s w props place user id (targetId target) sound with
      ⟨status, failed, -⟩ | ⟨parent, -, -, -, -, found, -, allowed, -⟩
    · cases done.symm.trans failed
    · cases there.symm.trans found
      exact allowed
  | destroy parentId selfId =>
    rcases @destroy_cases s w user parentId selfId sound with
      ⟨status, failed, -⟩ | ⟨parent, -, -, found, -, allowed, -⟩
    · cases done.symm.trans failed
    · cases there.symm.trans found
      exact allowed
  | _ => cases modifies

theorem perform_leaves (sound : Sound s) (clear : r.Clear s)
    (spared : ∀ parentId selfId reply, r = .destroy parentId selfId →
      (s.perform user w r).1 = .ok reply → selfId.object ≠ d)
    (there : s.dir d = some obj) (confined : Confined user obj) :
    ∃ obj', (s.perform user w r).2.dir d = some obj' ∧ Leaves user obj obj' := by
  cases modifies : r.modifies with
  | true =>
    obtain ⟨edit, performed, edits⟩ := @perform_edit s w user r modifies
    obtain ⟨-, result⟩ := @modify_spec s w r.self edit sound
    rw [performed]
    generalize s.modify w r.self edit = answer at *
    obtain ⟨result?, t⟩ := answer
    cases result? with
    | error status => exact ⟨obj, result.dir ▸ there, .refl⟩
    | ok reply =>
      obtain ⟨obj', props, calls, found, -, edited, -, -, frame, updated⟩ := result
      by_cases self : d = r.self.object
      · rw [self] at there
        cases there.symm.trans found
        exact ⟨_, self ▸ updated, .edit confined (edits obj props calls edited).1⟩
      · exact ⟨obj, (frame d self).1.trans there, .refl⟩
  | false =>
    have parent : ∀ reply, (s.perform user w r).1 = .ok reply → d ≠ r.self.object := by
      rintro reply done rfl
      exact confined.dir (lists_of_validate confined.ordinary
        (validateDir_of_ok sound there done modifies))
    obtain ⟨-, effect⟩ := @perform_effect s w user r sound clear
    have same : (s.perform user w r).2.dir d = s.dir d := by
      generalize s.perform user w r = answer at *
      obtain ⟨result, t⟩ := answer
      cases effect with
      | kept dir => exact congrFun dir d
      | orphaned child fresh leaf leaked dir =>
        have old : d ≠ child.id.object := fun same => by rw [same, fresh] at there; cases there
        rw [dir, update_of_ne old]
      | created parent' id found own fresh chosen dir =>
        have old : d ≠ id.object := fun same => by rw [same, fresh] at there; cases there
        exact (congrFun dir d).trans ((update_of_ne (parent _ rfl) ..).trans (update_of_ne old ..))
      | destroyed parent' found own listed current leaf gone dir self =>
        exact (congrFun dir d).trans ((update_of_ne (spared _ _ _ rfl rfl).symm ..).trans
          (update_of_ne (parent _ rfl) ..))
      | modified obj props there own dir self modifies' => cases modifies.symm.trans modifies'
    exact ⟨obj, same.trans there, .refl⟩

end Step

/-! ## Many requests -/

/-- What the access lists of a directory deny a user stays as it is, whatever the user asks for. -/
theorem authority_confined {calls : List (Writes × Request)} (sound : Sound s)
    (there : s.dir d = some obj) (confined : Confined user obj)
    (undisturbed : Undisturbed user d s calls) :
    ∃ obj', (s.performAll user calls).dir d = some obj' ∧ Unchanged user obj obj' := by
  induction calls generalizing s obj with
  | nil => exact ⟨obj, there, rfl, rfl, fun _ _ found _ => found⟩
  | cons call calls ih =>
    obtain ⟨clear, spared, rest⟩ := undisturbed
    obtain ⟨obj₁, there₁, leaves⟩ := perform_leaves sound clear spared there confined
    obtain ⟨obj', there', later⟩ :=
      ih (perform_effect sound clear).1.sound there₁ (leaves.confined confined) rest
    exact ⟨obj', there', leaves.unchanged_trans later⟩

/-- A root that `u` may change, and a directory in it that `u` may not. -/
def shared : Store where
  blocksize := 512
  highestId := 2
  instances := fun _ => 1
  records := fun i => .decoded (if i = 0 then ⟨⟨0, 1⟩, 0, [1], [⟨accessDirKey, [[117]]⟩]⟩
    else ⟨⟨i, 1⟩, 0, [], []⟩)
  cache := fun _ => none
  commits := fun _ => 0
  leaked := []

theorem sound_shared : Sound shared where
  sized := .inr rfl
  bounded := by decide
  own i _ := .inl (by cases i <;> rfl)
  coherent _ _ cached := by cases cached
  known i obj there := by
    obtain ⟨-, record, -⟩ := dir_eq_some_iff.mp there
    cases i <;> cases record <;> exact .inl rfl

theorem confined_shared : Confined (some [117]) ⟨⟨1, 1⟩, 0, [], []⟩ where
  ordinary := by decide
  dir := fun ⟨_, found, _⟩ => by cases found
  lists _ mem := by cases mem

/-- `u` may write to the root, and the directory stays as it is. -/
theorem authority_confined_shared :
    ∃ obj', (shared.performAll (some [117])
      [(Writes.all, .writeprop ⟨0, 1⟩ 0 [])]).dir 1 = some obj' ∧
        Unchanged (some [117]) ⟨⟨1, 1⟩, 0, [], []⟩ obj' :=
  authority_confined sound_shared rfl confined_shared ⟨trivial, nofun, trivial⟩

/-- But `u` may also destroy the directory, and create another one that gets its id. -/
theorem authority_recreated : ¬∀ s user d obj calls, Sound s → s.dir d = some obj →
    Confined user obj → ∃ obj', (s.performAll user calls).dir d = some obj' ∧
      Unchanged user obj obj' := by
  intro kept
  obtain ⟨obj', there, unchanged⟩ := kept shared (some [117]) 1 _
    [(Writes.all, .destroy ⟨0, 1⟩ ⟨1, 1⟩), (Writes.all, .create ⟨0, 2⟩ [⟨[112], []⟩] 0 none)]
    sound_shared rfl confined_shared
  have names : ((shared.performAll (some [117]) [(Writes.all, .destroy ⟨0, 1⟩ ⟨1, 1⟩),
      (Writes.all, .create ⟨0, 2⟩ [⟨[112], []⟩] 0 none)]).dir 1).map (·.props.map (·.name)) =
      some [[112]] := by decide +kernel
  rw [there, Option.map_some, unchanged.names] at names
  cases names

end Darwin.Netinfo
