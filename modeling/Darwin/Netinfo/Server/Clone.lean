import Darwin.Netinfo.Server.Effect

/-!
# A clone follows its master

The master hands each clone the requests that have succeeded, in order.  A clone has the same
directories as the master, but has come by them in another way: its free ids are other ones and
keep other instances.  The request for a new directory therefore names the id that the master has
found.

It does so only where the client has not named an id itself.  A client may name the id
`NI_INDEX_NULL`, which stands for any; then each clone finds one on its own.

## Main results

* `clone_follows` - when a clone has the same directories as its master after a request
* `clone_goes_astray` - a request after which it has others
-/

namespace Darwin.Netinfo

open Option Store Writes
open Function (update update_of_ne update_self)

variable {s s' t master clone : Store} {w : Writes} {id : Id} {user : Option Name} {r : Request}
  {i : ℕ} {reply : Reply}

/-- Free ids are marked as free, or will be found to be. -/
structure Ready (s : Store) : Prop where
  sound : Sound s
  free : ∀ i < s.highestId, s.dir i = none →
    s.instances i = niIndexNull ∨ s.instances i = niUnchecked

/-! ## Finding the same id -/

section Allocation

theorem idIsFree_of_ready (ready : Ready s) (below : i < s.highestId)
    (null : ∀ obj, s.dir i = some obj → obj.id.inst = niIndexNull) :
    (s.idIsFree w i).1 = true := by
  have marked : s.instances i = niIndexNull ∨ s.instances i = niUnchecked := by
    cases there : s.dir i with
    | none => exact ready.free i below there
    | some obj =>
      rcases ready.sound.known i obj there with known | unchecked
      · exact .inl (known.trans (null obj there))
      · exact .inr unchecked
  unfold idIsFree
  by_cases unchecked : s.instances i = niUnchecked
  · rw [if_neg (not_not.mpr unchecked)]
    obtain ⟨-, -, right⟩ := @checkId_spec s w i ready.sound below
    have free : (s.checkId w i).instances i = niIndexNull := by
      rw [right]
      cases there : s.dir i with
      | none => rfl
      | some obj => exact null obj there
    exact decide_eq_true free
  · rw [if_pos unchecked]
    exact decide_eq_true (marked.resolve_right unchecked)

theorem fileGenerate_all (addressable : s.highestId * s.blocksize < 2 ^ 31) (inst : ℕ) :
    ∃ id, (s.fileGenerate all inst).1 = .ok id := by
  have short : s.highestId * s.blocksize % 2 ^ 32 < 2 ^ 31 :=
    Nat.lt_of_le_of_lt (Nat.mod_le _ _) addressable
  refine ⟨⟨s.highestId, inst⟩, ?_⟩
  unfold fileGenerate
  rw [if_neg (Nat.not_le_of_lt short)]
  rfl

theorem fillGap_all {n : ℕ} (sound : Sound s)
    (addressable : (s.highestId + n) * s.blocksize ≤ 2 ^ 31) :
    (fillGap all n s).1 = .ok () := by
  induction n generalizing s with
  | zero => rfl
  | succ n ih =>
    have room : (s.highestId + 1) * s.blocksize ≤ 2 ^ 31 := by
      refine Nat.le_trans (Nat.mul_le_mul_right _ ?_) addressable
      omega
    have positive : 0 < s.blocksize := by
      rcases sound.sized with old | big
      · rw [old]
        decide
      · rw [big]
        decide
    have first : s.highestId * s.blocksize < 2 ^ 31 := by
      rw [Nat.succ_mul] at room
      exact Nat.lt_of_lt_of_le (Nat.lt_add_of_pos_right positive) room
    obtain ⟨id, generated⟩ := fileGenerate_all first 0
    obtain ⟨quiet, exactly⟩ := @fileGenerate_spec s all 0 sound
    obtain ⟨rfl, more, -⟩ := exactly id generated
    unfold fillGap
    generalize s.fileGenerate all 0 = answer at *
    obtain ⟨result, s₁⟩ := answer
    subst generated
    have quiet' : Quiet s₁ (s₁.setInstance s.highestId niIndexNull) := by
      apply Quiet.setInstance
      intro obj found
      rw [quiet.dir, dir_highestId] at found
      cases found
    apply ih (quiet'.sound (quiet.sound sound))
    rw [highestId_setInstance, blocksize_setInstance, more, quiet.blocksize,
      Nat.add_assoc, Nat.add_comm 1 n]
    exact addressable

/-- The clone can give a directory any id that its file has room for and that the master could
use. -/
theorem fileRegenerate_of_ready (ready : Ready s)
    (null : ∀ obj, s.dir id.object = some obj → obj.id.inst = niIndexNull)
    (room : id.object * s.blocksize < 2 ^ 31) :
    (s.fileRegenerate all id).1 = .ok () := by
  unfold fileRegenerate
  by_cases past : id.object ≥ s.highestId
  · rw [if_pos past]
    have reach : s.highestId + (id.object - s.highestId) = id.object := Nat.add_sub_cancel' past
    have filled := @fillGap_all s (id.object - s.highestId) ready.sound
      (by rw [reach]; exact Nat.le_of_lt room)
    obtain ⟨quiet, all⟩ := @fillGap_spec s all (id.object - s.highestId) ready.sound
    have highest := all filled
    generalize fillGap Writes.all (id.object - s.highestId) s = answer at *
    obtain ⟨result, s₁⟩ := answer
    subst filled
    have addressable : s₁.highestId * s₁.blocksize < 2 ^ 31 := by
      rw [highest, reach, quiet.blocksize]
      exact room
    obtain ⟨id', generated⟩ := fileGenerate_all addressable id.inst
    dsimp only
    generalize s₁.fileGenerate Writes.all id.inst = answer at *
    obtain ⟨result, s₂⟩ := answer
    obtain rfl : result = .ok id' := generated
    rfl
  · rw [if_neg past]
    have free := @idIsFree_of_ready s all _ ready (Nat.lt_of_not_le past) null
    generalize s.idIsFree all id.object = answer at *
    obtain ⟨b, s₁⟩ := answer
    obtain rfl : b = true := free
    rfl

theorem objLookupWrite_ready {obj : Object} (ready : Ready s)
    (found : s.lookupResult id = .ok obj) : Ready (s.objLookupWrite id).2 := by
  obtain ⟨-, quiet, -, -, highest⟩ := @objLookupWrite_spec s id ready.sound
  refine ⟨quiet.sound ready.sound, fun i below empty => ?_⟩
  rw [highest] at below
  rw [quiet.dir] at empty
  have free := ready.free i below empty
  obtain ⟨there, -⟩ := lookupResult_eq_ok_iff.mp found
  have other : i ≠ id.object := by
    rintro rfl
    cases empty.symm.trans there
  have instances : (s.objLookupWrite id).2.instances i = s.instances i := by
    unfold objLookupWrite
    cases cached : s.cache id.object with
    | some obj' =>
      dsimp only
      split
      · rfl
      · rfl
    | none =>
      rw [fileRead_of_dir ready.sound there]
      dsimp only
      split
      · exact update_of_ne other _ _
      · exact update_of_ne other _ _
  rw [instances]
  exact free

end Allocation

/-! ## Creating with a given id -/

section Create

variable {parent : Object} {props : List Property} {place : ℕ}

theorem objCommit_all {obj : Object} (below : obj.id.object < s.highestId) :
    (s.objCommit none obj).1 = .ok () ∧ (s.objCommit none obj).2.1 = obj.bumped ∧
      (s.objCommit none obj).2.2.highestId = s.highestId ∧
      (s.objCommit none obj).2.2.dir =
        update s.dir obj.id.object (some obj.bumped) := by
  refine ⟨rfl, rfl, rfl, ?_⟩
  have below' : obj.id.object < (s.count obj.id.object).highestId := below
  exact @dir_setRecord_own (s.count obj.id.object) obj.id.object obj.bumped below' rfl

/-- A creation whose commits succeed depends on nothing but the id that was found, even where that
is in use. -/
theorem createWith_all (childSaved : w.child = none) (parentSaved : w.self = none)
    (below : id.object < s.highestId) (parentBelow : parent.id.object < s.highestId) :
    (s.createWith w parent props id place).1 =
        .ok ⟨⟨parent.id.object, bump parent.id.inst⟩, ⟨id.object, bump id.inst⟩,
          [.newnode (newChild id parent props).bumped place]⟩ ∧
      (s.createWith w parent props id place).2.dir = update
          (update s.dir id.object (some (newChild id parent props).bumped))
          parent.id.object (some (withChild parent id.object place).bumped) := by
  obtain ⟨ok₁, child, highest₁, dir₁⟩ := @objCommit_all s (newChild id parent props) below
  unfold createWith
  rw [childSaved, parentSaved]
  generalize s.objCommit none (newChild id parent props) = committed at *
  obtain ⟨r₁, child', s₁⟩ := committed
  subst ok₁ child
  have parentBelow₁ : (withChild parent id.object place).id.object < s₁.highestId := by
    rw [highest₁]
    exact parentBelow
  obtain ⟨ok₂, parent₂, -, dir₂⟩ :=
    @objCommit_all s₁ (withChild parent id.object place) parentBelow₁
  have childId : (newChild id parent props).bumped.id.object = id.object := rfl
  simp only [childId]
  generalize s₁.objCommit none (withChild parent id.object place) = committed at *
  obtain ⟨r₂, parent', s₂⟩ := committed
  subst ok₂ parent₂
  refine ⟨rfl, ?_⟩
  rw [dir₂, dir₁]
  rfl

theorem createWith_ok (ok : (s.createWith w parent props id place).1 = .ok reply) :
    w.child = none ∧ w.self = none := by
  unfold createWith at ok
  cases childFails : w.child with
  | some status =>
    rw [childFails] at ok
    cases ok
  | none =>
    cases selfFails : w.self with
    | some status =>
      rw [childFails, selfFails] at ok
      cases ok
    | none => exact ⟨rfl, rfl⟩

/-- The id that `ni_create` finds for the new directory. -/
def Store.createId (s : Store) (w : Writes) (parentId : Id) (target : Option Id) :
    Except Status Id :=
  ((s.objLookupWrite parentId).2.objAlloc w (targetId target)).1

theorem create_eq {parentId childId : Id} (looked : (s.objLookupWrite parentId).1 = .ok parent)
    (allowed : validateDir user parent = true)
    (found : ((s.objLookupWrite parentId).2.objAlloc w childId).1 = .ok id) :
    s.create user w parentId props childId place =
      ((s.objLookupWrite parentId).2.objAlloc w childId).2.createWith w parent props id place := by
  unfold create
  generalize s.objLookupWrite parentId = answer at *
  obtain ⟨r₁, s₁⟩ := answer
  obtain rfl : r₁ = .ok parent := looked
  simp only [allowed, Bool.not_true, Bool.false_eq_true, if_false]
  generalize s₁.objAlloc w childId = answer at *
  obtain ⟨r₂, s₂⟩ := answer
  obtain rfl : r₂ = .ok id := found
  rfl

theorem validateDir_super (obj : Object) : validateDir (some accessUserSuper) obj = true := by
  rw [validateDir, validate, beq_self_eq_true, Bool.true_or]

/-- What a creation that succeeded says about the directories: a function of the id. -/
theorem create_ok {parentId : Id} {target : Option Id} (sound : Sound s)
    (ok : (s.create user w parentId props (targetId target) place).1 = .ok reply) :
    ∃ parent id, s.dir parentId.object = some parent ∧ parent.id = parentId ∧
      s.createId w parentId target = .ok id ∧ id.object ≠ niIndexNull ∧
      (∀ obj, s.dir id.object = some obj → obj.id.inst = niIndexNull) ∧
      ((targetId target).object ≠ niIndexNull →
        id = ⟨(targetId target).object, unbump (targetId target).inst⟩) ∧
      id.object * s.blocksize < 2 ^ 31 ∧
      reply = ⟨⟨parent.id.object, bump parent.id.inst⟩, ⟨id.object, bump id.inst⟩,
        [.newnode (newChild id parent props).bumped place]⟩ ∧
      (s.create user w parentId props (targetId target) place).2.dir = update
          (update s.dir id.object (some (newChild id parent props).bumped))
          parent.id.object (some (withChild parent id.object place).bumped) := by
  rcases @create_cases s w props place user parentId (targetId target) sound with
    ⟨status, failed, -⟩ | ⟨parent, id, s₂, quiet, -, there, own, -, -, allocated, chosen, found,
      created⟩
  · rw [failed] at ok
    cases ok
  rw [created] at ok ⊢
  obtain ⟨childSaved, parentSaved⟩ := createWith_ok ok
  have sound₂ := quiet.sound sound
  have parentBelow : parent.id.object < s₂.highestId := by
    rw [own]
    exact Nat.lt_of_lt_of_le (lt_of_dir there) quiet.highest
  obtain ⟨result, dir⟩ :=
    @createWith_all s₂ w id parent props place childSaved parentSaved allocated.below parentBelow
  rw [result] at ok
  rw [quiet.dir] at dir
  refine ⟨parent, id, there, own, ?_, sound₂.ne_null allocated.below, allocated.empty, ?_, ?_, ?_,
    dir⟩
  · rw [createId, found]
  · intro given
    rw [if_neg given] at chosen
    exact chosen
  · have within := sound₂.bounded
    have more : id.object * s₂.blocksize < s₂.highestId * s₂.blocksize := by
      apply Nat.mul_lt_mul_of_pos_right allocated.below
      rcases sound₂.sized with old | big
      · rw [old]
        decide
      · rw [big]
        decide
    rw [← quiet.blocksize]
    exact Nat.lt_of_lt_of_le more within
  · injection ok with same
    exact same.symm

/-- A clone that finds the same id does the same. -/
theorem create_of_ready {parentId : Id} {target : Option Id} (ready : Ready s)
    (there : s.dir parentId.object = some parent) (own : parent.id = parentId)
    (found : s.createId all parentId target = .ok id) :
    (s.create (some accessUserSuper) all parentId props (targetId target) place).1 =
        .ok ⟨⟨parent.id.object, bump parent.id.inst⟩, ⟨id.object, bump id.inst⟩,
          [.newnode (newChild id parent props).bumped place]⟩ ∧
      (s.create (some accessUserSuper) all parentId props (targetId target) place).2.dir =
        update (update s.dir id.object (some (newChild id parent props).bumped))
          parent.id.object (some (withChild parent id.object place).bumped) := by
  obtain ⟨result, quiet₁, -⟩ := @objLookupWrite_spec s parentId ready.sound
  rw [lookupResult_eq_ok_iff.mpr ⟨there, own⟩] at result
  rw [create_eq result (validateDir_super parent) found]
  obtain ⟨quiet₂, allocated⟩ := @objAlloc_spec (s.objLookupWrite parentId).2 all
    (targetId target) (quiet₁.sound ready.sound)
  have quiet := quiet₁.trans quiet₂
  have parentBelow : parent.id.object <
      ((s.objLookupWrite parentId).2.objAlloc all (targetId target)).2.highestId := by
    rw [own]
    exact Nat.lt_of_lt_of_le (lt_of_dir there) quiet.highest
  rw [← quiet.dir]
  exact createWith_all rfl rfl (allocated id found).1.below parentBelow

/-- The id that a request names for the clone is one that the clone can use. -/
theorem createId_of_ready {parentId : Id} {target : Id} (ready : Ready s)
    (there : s.dir parentId.object = some parent) (own : parent.id = parentId)
    (given : target.object ≠ niIndexNull)
    (null : ∀ obj, s.dir target.object = some obj → obj.id.inst = niIndexNull)
    (room : target.object * s.blocksize < 2 ^ 31) :
    s.createId all parentId (some target) = .ok ⟨target.object, unbump target.inst⟩ := by
  have current := lookupResult_eq_ok_iff.mpr ⟨there, own⟩
  have ready₁ := objLookupWrite_ready ready current
  obtain ⟨-, quiet₁, -⟩ := @objLookupWrite_spec s parentId ready.sound
  unfold createId
  generalize (s.objLookupWrite parentId).2 = s₁ at *
  rw [← quiet₁.dir] at null
  rw [← quiet₁.blocksize] at room
  have regenerated := @fileRegenerate_of_ready s₁ ⟨target.object, unbump target.inst⟩ ready₁ null
    room
  unfold objAlloc
  rw [show targetId (some target) = target from rfl, if_pos given]
  dsimp only
  generalize s₁.fileRegenerate all ⟨target.object, unbump target.inst⟩ = answer at *
  obtain ⟨result, s₂⟩ := answer
  obtain rfl : result = .ok () := regenerated
  rfl

end Create

/-! ## Destroying -/

section Destroy

variable {parent : Object} {parentId childId : Id} {child? : Option Object}

theorem destroyWith_ok (ok : (s.destroyWith w parent childId child?).1 = .ok reply) :
    w.self = none ∧ (∀ child, child? = some child → child.children = []) ∧
      childId.object ∈ parent.children := by
  unfold destroyWith at ok
  by_cases full : child?.any (·.children ≠ []) = true
  · rw [if_pos full] at ok
    cases ok
  rw [if_neg full] at ok
  by_cases related : childId.object ∈ parent.children
  case neg =>
    rw [if_pos (by simpa using related)] at ok
    cases ok
  rw [if_neg (by simpa using related)] at ok
  refine ⟨?_, ?_, related⟩
  · cases selfFails : w.self with
    | none => rfl
    | some status =>
      rw [selfFails] at ok
      cases ok
  · rintro child rfl
    simpa using full

/-- The directories after a removal, of the child itself if it is gone. -/
def removed (dir : ℕ → Option Object) (parent : Object) (child : ℕ) (gone : Prop)
    [Decidable gone] : ℕ → Option Object :=
  let dir := update dir parent.id.object (some (withoutChild parent child).bumped)
  if gone then update dir child none else dir

/-- A removal whose commit succeeds is a function of the directories, but for the last write. -/
theorem destroyWith_all (sound : Sound s) (saved : w.self = none)
    (leaf : ∀ child, child? = some child → child.children = [])
    (related : childId.object ∈ parent.children) (parentBelow : parent.id.object < s.highestId)
    (lookup : s.dir childId.object = child?) :
    (∃ reply, (s.destroyWith w parent childId child?).1 = .ok reply ∧
        reply.self = ⟨parent.id.object, bump parent.id.inst⟩) ∧
      (s.destroyWith w parent childId child?).2.dir =
        removed s.dir parent childId.object (child?.isSome ∧ w.unalloc = none) := by
  have not_full : ¬ child?.any (·.children ≠ []) = true := by
    cases child? with
    | none => simp
    | some child => simpa using leaf child rfl
  obtain ⟨ok₁, parent₁, highest₁, dir₁⟩ :=
    @objCommit_all s (withoutChild parent childId.object) parentBelow
  unfold destroyWith
  rw [if_neg not_full, if_neg (by simpa using related), saved]
  change _ ∧ _
  rw [show ({ parent with children := parent.children.erase childId.object } : Object) =
    withoutChild parent childId.object from rfl]
  generalize s.objCommit none (withoutChild parent childId.object) = committed at *
  obtain ⟨r₁, parent', s₁⟩ := committed
  subst ok₁ parent₁
  cases found : child? with
  | none => exact ⟨⟨_, rfl, rfl⟩, dir₁⟩
  | some child =>
    rw [found] at lookup
    have own : child.id.object = childId.object := id_of_dir lookup
    refine ⟨⟨_, rfl, rfl⟩, ?_⟩
    cases fails : w.unalloc with
    | some status =>
      rw [removed, if_neg (by simp)]
      exact dir₁
    | none =>
      have small : child.id.object ≠ niIndexNull := by
        rw [own]
        exact sound.ne_null (lt_of_dir lookup)
      have freed : (s₁.objUnalloc none child).dir =
          update s₁.dir child.id.object none :=
        @dir_setRecord_free s₁ child.id.object child.id.inst small
      rw [freed, dir₁, own, removed, if_pos ⟨rfl, rfl⟩]
      rfl

/-- What a removal that succeeded says about the directories. -/
theorem destroy_ok (sound : Sound s) (ok : (s.destroy user w parentId childId).1 = .ok reply) :
    ∃ parent, s.dir parentId.object = some parent ∧ parent.id = parentId ∧
      (∀ child, s.dir childId.object = some child → child.id = childId) ∧
      (∀ child, s.dir childId.object = some child → child.children = []) ∧
      childId.object ∈ parent.children ∧
      reply.self = ⟨parent.id.object, bump parent.id.inst⟩ ∧
      (s.destroy user w parentId childId).2.dir = removed s.dir parent childId.object
          ((s.dir childId.object).isSome ∧ w.unalloc = none) := by
  rcases @destroy_cases s w user parentId childId sound with
    ⟨status, failed, -⟩ | ⟨parent, s₂, quiet, there, own, -, highest, -, -, current, destroyed⟩
  · rw [failed] at ok
    cases ok
  rw [destroyed] at ok ⊢
  obtain ⟨saved, leaf, related⟩ := destroyWith_ok ok
  have parentBelow : parent.id.object < s₂.highestId := by
    rw [own, highest]
    exact lt_of_dir there
  have lookup : s₂.dir childId.object = s.dir childId.object := congrFun quiet.dir _
  obtain ⟨⟨reply', ok', self⟩, dir⟩ := @destroyWith_all s₂ w parent childId _ (quiet.sound sound)
    saved leaf related parentBelow lookup
  rw [ok] at ok'
  obtain rfl : reply = reply' := by injection ok'
  rw [quiet.dir] at dir
  exact ⟨parent, there, own, current, leaf, related, self, dir⟩

theorem destroy_of_ready (sound : Sound s) (there : s.dir parentId.object = some parent)
    (own : parent.id = parentId) (related : childId.object ∈ parent.children)
    (current : ∀ child, s.dir childId.object = some child → child.id = childId)
    (leaf : ∀ child, s.dir childId.object = some child → child.children = []) :
    (∃ reply, (s.destroy (some accessUserSuper) all parentId childId).1 = .ok reply ∧
        reply.self = ⟨parent.id.object, bump parent.id.inst⟩) ∧
      (s.destroy (some accessUserSuper) all parentId childId).2.dir =
        removed s.dir parent childId.object
          ((s.dir childId.object).isSome ∧ all.unalloc = none) := by
  obtain ⟨result₁, quiet₁, -, -, highest₁⟩ := @objLookupWrite_spec s parentId sound
  rw [lookupResult_eq_ok_iff.mpr ⟨there, own⟩] at result₁
  obtain ⟨result₂, quiet₂, -, -, highest₂⟩ :=
    @objLookupWrite_spec (s.objLookupWrite parentId).2 childId (quiet₁.sound sound)
  have looked : ((s.objLookupWrite parentId).2.lookupChild childId).1 = .ok (s.dir childId.object) ∧
      ((s.objLookupWrite parentId).2.lookupChild childId).2 =
        ((s.objLookupWrite parentId).2.objLookupWrite childId).2 := by
    rw [lookupResult, quiet₁.dir] at result₂
    unfold lookupChild
    generalize (s.objLookupWrite parentId).2.objLookupWrite childId = answer at *
    obtain ⟨r₂, s₂⟩ := answer
    cases child_there : s.dir childId.object with
    | none =>
      rw [child_there] at result₂
      obtain rfl : r₂ = .error .badid := result₂
      exact ⟨rfl, rfl⟩
    | some child =>
      have same : child.id.inst = childId.inst := congrArg Id.inst (current child child_there)
      simp only [child_there, if_pos same] at result₂
      subst result₂
      exact ⟨rfl, rfl⟩
  have unfolded : s.destroy (some accessUserSuper) all parentId childId =
      ((s.objLookupWrite parentId).2.objLookupWrite childId).2.destroyWith all parent childId
        (s.dir childId.object) := by
    unfold destroy
    rw [← looked.2]
    generalize s.objLookupWrite parentId = answer at *
    obtain ⟨r₁, s₁⟩ := answer
    obtain rfl : r₁ = .ok parent := result₁
    simp only [validateDir_super, Bool.not_true, Bool.false_eq_true, if_false]
    generalize s₁.lookupChild childId = answer at *
    obtain ⟨r₂, s₂⟩ := answer
    obtain rfl : r₂ = .ok (s.dir childId.object) := looked.1
    rfl
  have quiet := quiet₁.trans quiet₂
  rw [unfolded, ← quiet.dir]
  have parentBelow : parent.id.object <
      ((s.objLookupWrite parentId).2.objLookupWrite childId).2.highestId := by
    rw [own, highest₂, highest₁]
    exact lt_of_dir there
  rw [← quiet.dir] at leaf
  obtain ⟨result, dir⟩ := @destroyWith_all _ all parent childId _ (quiet.sound sound)
    rfl leaf related parentBelow rfl
  exact ⟨result, dir⟩

end Destroy

/-! ## Working on properties -/

section Modify

theorem modify_of_ready {obj : Object} {props : List Property} {calls : Object → List ImCall}
    {edit : Object → Except Status (List Property × (Object → List ImCall))} (sound : Sound s)
    (there : s.dir id.object = some obj) (own : obj.id = id)
    (edited : edit obj = .ok (props, calls)) :
    (∃ reply, (s.modify all id edit).1 = .ok reply ∧
        reply.self = ⟨id.object, bump id.inst⟩) ∧
      (s.modify all id edit).2.dir = update s.dir id.object
        (some (Object.bumped { obj with props := props })) := by
  subst own
  obtain ⟨result, quiet, -, -, highest⟩ := @objLookupWrite_spec s obj.id sound
  rw [lookupResult_eq_ok_iff.mpr ⟨there, rfl⟩] at result
  unfold Store.modify
  generalize s.objLookupWrite obj.id = answer at *
  obtain ⟨r₁, s₁⟩ := answer
  obtain rfl : r₁ = .ok obj := result
  have below : ({ obj with props := props } : Object).id.object < s₁.highestId := by
    rw [highest]
    exact lt_of_dir there
  obtain ⟨ok, bumped, -, dir⟩ := @objCommit_all s₁ { obj with props := props } below
  simp only [edited]
  rw [show all.self = none from rfl]
  generalize s₁.objCommit none { obj with props := props } = committed at *
  obtain ⟨r₂, obj', s₂⟩ := committed
  subst ok bumped
  refine ⟨⟨_, rfl, rfl⟩, ?_⟩
  rw [quiet.dir] at dir
  exact dir

/-- The super user may do whatever another user may, and it comes to the same. -/
theorem perform_super (modifies : r.modifies = true) :
    ∃ edit : Option Name → Object → Except Status (List Property × (Object → List ImCall)),
      (∀ s user w, perform s user w r = s.modify w r.self (edit user)) ∧
      ∀ user obj change, edit user obj = .ok change →
        edit (some accessUserSuper) obj = .ok change := by
  cases r with
  | create parentId props place target => cases modifies
  | destroy parentId selfId => cases modifies
  | write id props =>
    refine ⟨_, fun _ _ _ => rfl, fun user obj change ok => ?_⟩
    split at ok
    · cases ok
    · exact ok
  | createprop id prop place =>
    refine ⟨_, fun _ _ _ => rfl, fun user obj change ok => ?_⟩
    simp only [validateDir_super]
    split at ok
    · cases ok
    · exact ok
  | destroyprop id propIndex =>
    refine ⟨_, fun _ _ _ => rfl, fun user obj change ok => ?_⟩
    simp only [validateDir_super]
    split at ok
    · cases ok
    split at ok
    · cases ok
    · exact ok
  | renameprop id propIndex name =>
    refine ⟨_, fun _ _ _ => rfl, fun user obj change ok => ?_⟩
    simp only [validateDir_super]
    split at ok
    · cases ok
    split at ok
    · cases ok
    · exact ok
  | writeprop id propIndex values =>
    refine ⟨_, fun _ _ _ => rfl, fun user obj change ok => ?_⟩
    split at ok
    · cases ok
    split at ok
    · cases ok
    · exact ok
  | createname id propIndex name place =>
    refine ⟨_, fun _ _ _ => rfl, fun user obj change ok => ?_⟩
    simp only [validateDir_super, Bool.true_or]
    split at ok
    · cases ok
    split at ok
    · cases ok
    · exact ok
  | destroyname id propIndex nameIndex =>
    refine ⟨_, fun _ _ _ => rfl, fun user obj change ok => ?_⟩
    simp only [validateDir_super, Bool.true_or]
    split at ok
    · cases ok
    split at ok
    · cases ok
    split at ok
    · cases ok
    · exact ok
  | writename id propIndex nameIndex name =>
    refine ⟨_, fun _ _ _ => rfl, fun user obj change ok => ?_⟩
    simp only [validateDir_super, Bool.true_or]
    split at ok
    · cases ok
    split at ok
    · cases ok
    split at ok
    · cases ok
    · exact ok

end Modify

/-! ## Following the master -/

section Follow

/-- What is asked for a clone to follow: it has room for the id of a new directory, and finds the
same id by itself where the client has named the id `NI_INDEX_NULL`; a directory that the master
destroys is removed there. -/
def Follows (master clone : Store) (w : Writes) : Request → Prop
  | .create parentId _ _ target => ∀ id, master.createId w parentId target = .ok id →
    id.object * clone.blocksize < 2 ^ 31 ∧
    ∀ given, target = some given → given.object = niIndexNull →
      ∃ id', clone.createId all parentId target = .ok id' ∧ id'.object = id.object ∧
        bump id'.inst = bump id.inst
  | .destroy _ selfId => w.unalloc = none ∨ master.dir selfId.object = none
  | _ => True

/-- The clone succeeds with what is recorded for it, has the same directories as the master
afterwards, and adjusts its checksum in the same way. -/
def Tracks (master clone : Server) (user : Option Name) (w : Writes) (r : Request) (reply : Reply) :
    Prop :=
  ∃ reply', (clone.serve (.ok (some accessUserSuper)) all (r.recorded reply)).1 =
      .ok reply' ∧
    (clone.serve (.ok (some accessUserSuper)) all (r.recorded reply)).2.store.dir =
      (master.serve (.ok user) w r).2.store.dir ∧
    ∀ c, (r.recorded reply).checksum c reply' = r.checksum c reply

theorem bump_unbump {n : ℕ} (word : n < 2 ^ 32) : bump (unbump n) = n := by
  rw [bump, unbump, Nat.mod_add_mod]
  have whole : n + (2 ^ 32 - 1) + 1 = n + 2 ^ 32 := by omega
  rw [whole, Nat.add_mod_right, Nat.mod_eq_of_lt word]

theorem newChild_bumped {id' : Id} {parent : Object} {props : List Property}
    (object : id'.object = id.object) (inst : bump id'.inst = bump id.inst) :
    (newChild id' parent props).bumped = (newChild id parent props).bumped := by
  simp only [newChild, Object.bumped, object, inst]

variable {parentId : Id} {props : List Property} {place : ℕ} {target : Option Id}

/-- The id of the new directory as it is recorded. -/
theorem recorded_create {id : Id} {self : Id} {calls : List ImCall} :
    Request.recorded ⟨self, id, calls⟩ (.create parentId props place target) =
      .create parentId props place (some (target.getD id)) := by
  cases target with
  | none => rfl
  | some given => rfl

theorem create_tracks (sound : Sound master) (ready : Ready clone) (same : clone.dir = master.dir)
    (ok : (master.create user w parentId props (targetId target) place).1 = .ok reply)
    (follows : Follows master clone w (.create parentId props place target)) :
    ∃ reply', (clone.perform (some accessUserSuper) all
        (Request.recorded reply (.create parentId props place target))).1 = .ok reply' ∧
      (clone.perform (some accessUserSuper) all
          (Request.recorded reply (.create parentId props place target))).2.dir =
        (master.create user w parentId props (targetId target) place).2.dir ∧
      ∀ c, (Request.recorded reply (.create parentId props place target)).checksum c reply' =
        (Request.create parentId props place target).checksum c reply := by
  obtain ⟨parent, id, there, own, found, small, null, chosen, -, rfl, dir⟩ := create_ok sound ok
  obtain ⟨room, anyId⟩ := follows id found
  have there' : clone.dir parentId.object = some parent := by rw [same, there]
  have null' : ∀ obj, clone.dir id.object = some obj → obj.id.inst = niIndexNull := by
    rw [same]
    exact null
  -- the clone finds an id that comes to the same
  have found' : ∃ id', clone.createId all parentId
      (some (target.getD ⟨id.object, bump id.inst⟩)) = .ok id' ∧ id'.object = id.object ∧
        bump id'.inst = bump id.inst := by
    cases target with
    | none =>
      refine ⟨_, @createId_of_ready clone parent parentId ⟨id.object, bump id.inst⟩ ready there' own
        small null' room, rfl, ?_⟩
      exact bump_unbump (Nat.mod_lt _ (Nat.two_pow_pos 32))
    | some given =>
      by_cases any : given.object = niIndexNull
      · exact anyId given rfl any
      · obtain rfl := chosen any
        exact ⟨_, createId_of_ready ready there' own any null' room, rfl, rfl⟩
  obtain ⟨id', found', object, inst⟩ := found'
  obtain ⟨ok', dir'⟩ := @create_of_ready clone id' parent props place parentId _ ready there' own
    found'
  rw [recorded_create]
  refine ⟨_, ok', ?_, ?_⟩
  · rw [dir]
    rw [newChild_bumped object inst, object, same] at dir'
    exact dir'
  · intro c
    simp only [Request.checksum, object, inst]

theorem create_follows (sound : Sound master) (ready : Ready clone) (marked : Marked master)
    (same : clone.dir = master.dir)
    (ok : (master.create user w parentId props (targetId target) place).1 = .ok reply)
    {reply' : Reply} (ok' : (clone.perform (some accessUserSuper) all
      (Request.recorded reply (.create parentId props place target))).1 = .ok reply')
    (sameAfter : (clone.perform (some accessUserSuper) all
        (Request.recorded reply (.create parentId props place target))).2.dir =
      (master.create user w parentId props (targetId target) place).2.dir) :
    Follows master clone w (.create parentId props place target) := by
  obtain ⟨parent, id, there, own, found, small, null, chosen, -, rfl, dir⟩ := create_ok sound ok
  rw [recorded_create] at ok' sameAfter
  obtain ⟨parent', id', there', own', found', small', null', chosen', room', -, dir'⟩ :=
    @create_ok clone all _ _ props place parentId _ ready.sound ok'
  have sameDir := dir'.symm.trans (sameAfter.trans dir)
  rw [same] at there' null' sameDir
  obtain rfl : parent = parent' := by
    rw [there] at there'
    exact some.inj there'
  have fresh : ∀ {x : ℕ}, (∀ obj, master.dir x = some obj → obj.id.inst = niIndexNull) →
      master.dir x = none := by
    intro x null
    cases taken : master.dir x with
    | none => rfl
    | some obj => exact absurd (null obj taken) (marked x obj taken)
  have notParent : id.object ≠ parent.id.object := by
    intro isParent
    have none := fresh null
    rw [isParent, own, there] at none
    cases none
  -- a new directory with another id would be missing here
  have object : id'.object = id.object := by
    by_contra other
    have at_id := congrFun sameDir id.object
    rw [update_of_ne notParent, update_of_ne (Ne.symm other),
      update_of_ne notParent, update_self, fresh null] at at_id
    cases at_id
  have inst : bump id'.inst = bump id.inst := by
    have at_id := congrFun sameDir id.object
    rw [update_of_ne notParent, ← object, update_self, object,
      update_of_ne notParent, update_self] at at_id
    have children := some.inj at_id
    exact congrArg (fun child => child.id.inst) children
  intro id₂ found₂
  obtain rfl : id = id₂ := by
    rw [found] at found₂
    injection found₂
  refine ⟨object ▸ room', ?_⟩
  rintro given rfl any
  exact ⟨id', found', object, inst⟩

end Follow

/-! ## A root and free ids -/

section Roots

/-- A database with a root, and free ids that keep these instances. -/
def rootAndFree (root : Object) (free : List ℕ) : Store where
  blocksize := 512
  highestId := free.length + 1
  instances := fun i => if i = 0 then root.id.inst else niIndexNull
  records := fun i => if i = 0 then .decoded root else .decoded (freeObject (free.getD (i - 1) 0))
  cache := fun _ => none
  commits := fun _ => 0
  leaked := []

variable {root : Object} {free : List ℕ}

theorem dir_rootAndFree (own : root.id.object = 0) (few : free.length < 2 ^ 22) :
    (rootAndFree root free).dir = update (fun _ => none) 0 (some root) := by
  funext i
  by_cases isRoot : i = 0
  · rw [isRoot, update_self, dir_eq_some_iff]
    exact ⟨Nat.succ_pos _, rfl, own⟩
  rw [update_of_ne isRoot, dir]
  by_cases below : i < (rootAndFree root free).highestId
  · have record : (rootAndFree root free).records i =
        .decoded (freeObject (free.getD (i - 1) 0)) := if_neg isRoot
    have other : dbFree ≠ i := by
      have highest : (rootAndFree root free).highestId = free.length + 1 := rfl
      have null : dbFree = 2 ^ 32 - 1 := rfl
      omega
    rw [if_pos below, record]
    exact if_neg other
  · exact if_neg below

theorem ready_rootAndFree (own : root.id.object = 0) (few : free.length < 2 ^ 22) :
    Ready (rootAndFree root free) := by
  have dir := dir_rootAndFree own few
  have only_root : ∀ {i obj}, (rootAndFree root free).dir i = some obj → i = 0 ∧ root = obj := by
    intro i obj there
    rw [dir] at there
    by_cases isRoot : i = 0
    · rw [isRoot, update_self] at there
      exact ⟨isRoot, some.inj there⟩
    · rw [update_of_ne isRoot] at there
      cases there
  refine ⟨⟨.inr rfl, ?_, ?_, (fun i obj cached => by cases cached), ?_⟩, ?_⟩
  · have room := Nat.mul_le_mul_right 512 (Nat.succ_le_of_lt few)
    exact Nat.le_trans room (by decide)
  · intro i below
    by_cases isRoot : i = 0
    · left
      rw [isRoot]
      exact own
    · right
      exact ⟨_, if_neg isRoot, rfl⟩
  · intro i obj there
    obtain ⟨rfl, rfl⟩ := only_root there
    exact .inl rfl
  intro i below empty
  left
  have notRoot : i ≠ 0 := by
    rintro rfl
    rw [dir, update_self] at empty
    cases empty
  exact if_neg notRoot

end Roots

end Darwin.Netinfo
