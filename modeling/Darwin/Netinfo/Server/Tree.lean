import Darwin.Lib.Forest
import Darwin.Lib.Runs
import Darwin.Netinfo.Server.Effect

/-!
# The directories form a tree

A new directory is committed before its parent takes it up, and a directory that is destroyed is
removed after its parent has let go of it, so that between any two writes there is a tree, perhaps
with a directory beside it.  That directory stays if it cannot be removed.

The search for a free id goes by the instances: a directory whose instance has come to
`NI_INDEX_NULL` is taken for a free one and overwritten.

## Main results

* `directories_form_tree` - the directories form a tree after any run, as long as no directory has
  that instance where a request looks for a free id
* `reused_id_in_two_lists` - without this, a directory is given to two parents
-/

namespace Darwin.Netinfo

open Option Store Writes
open Function (update update_of_ne)
open Darwin.Lib Relation

variable {s s' t : Store} {w : Writes} {id : Id} {user : Option Name} {r : Request}
  {result : Except Status Reply} {i j k : ℕ} {obj : Object}

/-- One directory is among the children of another. -/
abbrev Store.Lists (s : Store) : ℕ → ℕ → Prop := Darwin.Lib.Lists Object.children s.dir

instance (s : Store) (i j : ℕ) : Decidable (s.Lists i j) :=
  decidable_of_iff (∃ obj ∈ s.dir i, j ∈ obj.children) (by
    simp only [mem_def]
    rfl)

/-- The directories form a tree below the root, and trees below directories that could not be
removed. -/
abbrev Store.Tree (s : Store) : Prop :=
  Forest Object.children Object.parent s.dir fun i => i = 0 ∨ i ∈ s.leaked

/-! ## One request -/

section Effects

/-- Nobody lists an id that has no directory. -/
theorem not_lists_fresh {top : ℕ → Prop}
    (tree : Forest Object.children Object.parent s.dir top) (fresh : s.dir j = none) (k : ℕ) :
    ¬ s.Lists k j := by
  intro listed
  obtain ⟨c, there, -⟩ := tree.child k j listed
  rw [fresh] at there
  cases there

theorem children_withChild {parent : Object} {child place : ℕ} (absent : child ∉ parent.children) :
    (withChild parent child place).children = insertAt parent.children place child := by
  simp only [withChild, List.contains_eq_mem, absent, decide_false, Bool.false_eq_true,
    if_false]

variable {parent : Object} {dir : ℕ → Option Object}

/-- Entering a new directory with its parent. -/
theorem Store.Tree.create {props : List Property} {place : ℕ}
    (tree : s.Tree) (there : s.dir parent.id.object = some parent) (fresh : s.dir id.object = none)
    (changed : dir = update (update s.dir id.object (some (newChild id parent props).bumped))
      parent.id.object (some (withChild parent id.object place).bumped)) :
    Forest Object.children Object.parent dir (fun i => i = 0 ∨ i ∈ s.leaked) ∧
      ∀ x y, Darwin.Lib.Lists Object.children dir x y ↔
        s.Lists x y ∨ x = parent.id.object ∧ y = id.object := by
  have other : parent.id.object ≠ id.object := by
    intro same
    rw [same, fresh] at there
    cases there
  have absent : id.object ∉ parent.children := fun listed =>
    not_lists_fresh tree fresh _ (lists_of_eq_some there listed)
  have children := @children_withChild parent id.object place absent
  have added : Forest Object.children Object.parent
      (update s.dir id.object (some (newChild id parent props).bumped))
      (fun i => (i = 0 ∨ i ∈ s.leaked) ∨ i = id.object) :=
    (tree.weaken fun _ => .inl).addLeaf fresh rfl (.inr rfl)
  have lists : Darwin.Lib.Lists Object.children
      (update s.dir id.object (some (newChild id parent props).bumped)) =
      s.Lists := by
    apply lists_update_leaf
    · rintro x ⟨b, found, -⟩
      rw [fresh] at found
      cases found
    · intro c same
      rw [← some.inj same]
      rfl
  have there' : update s.dir id.object (some (newChild id parent props).bumped)
      parent.id.object = some parent := by
    rw [update_of_ne other]
    exact there
  have mem : ∀ x, x ∈ (withChild parent id.object place).bumped.children ↔
      x = id.object ∨ x ∈ parent.children := by
    intro x
    rw [show (withChild parent id.object place).bumped.children =
      (withChild parent id.object place).children from rfl, children]
    exact mem_insertAt
  have nodup : (withChild parent id.object place).bumped.children.Nodup := by
    rw [show (withChild parent id.object place).bumped.children =
      (withChild parent id.object place).children from rfl, children]
    exact nodup_insertAt (tree.nodup _ _ there) absent
  subst changed
  constructor
  · have attached := added.attach there' (Function.update_self _ _ _) rfl ?_ rfl mem nodup rfl other
    · apply attached.weaken
      rintro x ⟨(old | isChild), notChild⟩
      · exact old
      · exact absurd isChild notChild
    · intro x
      rw [lists]
      exact not_lists_fresh tree fresh x
  · intro x y
    rw [lists_attach there' mem, lists]

/-- Letting go of a directory that has no children. -/
theorem Store.Tree.destroy {leaked : List ℕ}
    (tree : s.Tree) (there : s.dir i = some parent) (listed : j ∈ parent.children)
    (leaf : ∀ child, s.dir j = some child → child.children = [])
    (more : s.leaked ⊆ leaked) (gone : dir j = none ∨ dir j = s.dir j ∧ j ∈ leaked)
    (changed : dir = update (update s.dir i (some (withoutChild parent j).bumped)) j (dir j)) :
    Forest Object.children Object.parent dir (fun i => i = 0 ∨ i ∈ leaked) ∧
      ∀ x y, Darwin.Lib.Lists Object.children dir x y ↔ s.Lists x y ∧ y ≠ j := by
  obtain ⟨child, child_there, -⟩ := tree.child i j (lists_of_eq_some there listed)
  have no_kids : ∀ k, ¬ s.Lists j k := not_lists_of_kids leaf
  have other : j ≠ i := by
    rintro rfl
    exact no_kids j (lists_of_eq_some there listed)
  have nodup := tree.nodup i parent there
  have mem : ∀ x, x ∈ (withoutChild parent j).bumped.children ↔ x ≠ j ∧ x ∈ parent.children :=
    fun x => nodup.mem_erase_iff
  have lists := lists_detach (i := i) tree there listed mem
  have detached : Forest Object.children Object.parent
      (update s.dir i (some (withoutChild parent j).bumped))
      (fun x => (x = 0 ∨ x ∈ s.leaked) ∨ x = j) :=
    (tree.weaken fun _ => .inl).detach there child_there (leaf child child_there) listed mem
      (nodup.erase j) rfl (.inr rfl)
  have before : update s.dir i (some (withoutChild parent j).bumped) j = s.dir j :=
    update_of_ne other _ _
  rcases gone with gone | ⟨kept, leaked'⟩
  · rw [gone] at changed
    rw [changed]
    constructor
    · have removed := detached.removeLeaf (j := j) ?_ fun k new => ((lists k j).mp new).2 rfl
      · apply removed.weaken
        rintro x ⟨((root | old) | isChild), notChild⟩
        · exact .inl root
        · exact .inr (more old)
        · exact absurd isChild notChild
      · rw [before]
        exact leaf
    · intro x y
      rw [lists_update_leaf, lists]
      · intro x' new
        exact no_kids x' ((lists j x').mp new).1
      · intro c same
        cases same
  · rw [kept, ← before, Function.update_eq_self] at changed
    rw [changed]
    refine ⟨detached.weaken ?_, lists⟩
    rintro x ((root | old) | isChild)
    · exact .inl root
    · exact .inr (more old)
    · exact .inr (isChild ▸ leaked')

/-- A request keeps the tree, and only a creation enters an id in a list. -/
theorem Effect.tree (effect : Effect s t r result) (keeps : Keeps s t) (tree : s.Tree) :
    t.Tree ∧ ∀ x y, t.Lists x y → s.Lists x y ∨ ∃ parentId props place target reply,
      r = .create parentId props place target ∧ result = .ok reply ∧ y = reply.child.object := by
  have weaker : ∀ x, x = 0 ∨ x ∈ s.leaked → x = 0 ∨ x ∈ t.leaked :=
    fun x top => top.imp_right fun old => keeps.leaked old
  cases effect with
  | kept dir =>
    rw [Store.Tree, Store.Lists, dir]
    exact ⟨tree.weaken weaker, fun x y old => .inl old⟩
  | orphaned child fresh leaf leaked dir =>
    rw [Store.Tree, Store.Lists, dir]
    refine ⟨(tree.weaken weaker).addLeaf fresh leaf (.inr leaked), fun x y new => .inl ?_⟩
    rw [lists_update_leaf] at new
    · exact new
    · rintro x' ⟨b, found, -⟩
      rw [fresh] at found
      cases found
    · intro c same
      rw [← some.inj same]
      exact leaf
  | created parent id there own fresh chosen dir =>
    subst own
    obtain ⟨forest, lists⟩ := tree.create there fresh dir
    refine ⟨forest.weaken weaker, fun x y new => ?_⟩
    rcases (lists x y).mp new with old | ⟨-, isChild⟩
    · exact .inl old
    · exact .inr ⟨_, _, _, _, _, rfl, rfl, isChild⟩
  | destroyed parent there own listed current leaf gone dir self =>
    obtain ⟨forest, lists⟩ := tree.destroy there listed leaf keeps.leaked gone dir
    exact ⟨forest, fun x y new => .inl ((lists x y).mp new).1⟩
  | modified obj props there own dir self modifies =>
    rw [Store.Tree, Store.Lists, dir]
    refine ⟨(tree.weaken weaker).replace there rfl rfl, ?_⟩
    rintro x y ⟨b, found, mem⟩
    refine .inl ?_
    by_cases same : x = r.self.object
    · subst same
      rw [Function.update_self] at found
      rw [← some.inj found] at mem
      exact lists_of_eq_some there mem
    · rw [update_of_ne same] at found
      exact ⟨b, found, mem⟩

/-- A directory that is destroyed is in no list. -/
theorem Effect.unlisted {parentId selfId : Id} {reply : Reply}
    (effect : Effect s t (.destroy parentId selfId) (.ok reply)) (keeps : Keeps s t)
    (tree : s.Tree) (k : ℕ) : ¬ t.Lists k selfId.object := by
  cases effect with
  | destroyed parent there own listed current leaf gone dir self =>
    obtain ⟨-, lists⟩ := tree.destroy there listed leaf keeps.leaked gone dir
    exact fun new => ((lists k _).mp new).2 rfl
  | modified obj props there own dir self modifies => cases modifies

end Effects

/-! ## Runs -/

section Runs

/-- The server, and the ids whose directories were destroyed and not created again since. -/
structure Database where
  server : Server
  destroyed : List ℕ

/-- A new database. -/
def Database.empty : Database := ⟨⟨Store.empty, 0⟩, []⟩

/-- What happens to a database: the procedures `ni_root` and those that modify it, with what comes
of their writes, and the look at a directory of all others. -/
inductive Step where
  | root (w again : Writes)
  | request (auth : Except Status (Option Name)) (w : Writes) (r : Request)
  | read (i : ℕ)

/-- The ids that are destroyed after a request that succeeded. -/
def Request.destroyed (destroyed : List ℕ) (reply : Reply) : Request → List ℕ
  | .create _ _ _ _ => destroyed.filter (· ≠ reply.child.object)
  | .destroy _ selfId => selfId.object :: destroyed
  | _ => destroyed

/-- The next state. -/
def Database.next (d : Database) : Step → Option Database
  | .root w again => some { d with server.store := (d.server.store.root w again).2 }
  | .request auth w r =>
    match d.server.serve auth w r with
    | (.ok reply, server) => some ⟨server, r.destroyed d.destroyed reply⟩
    | (.error _, server) => some ⟨server, d.destroyed⟩
  | .read i => some { d with server.store := (d.server.store.objLookupRead i).2 }

/-- No directory that the step could take for a free one has the instance `NI_INDEX_NULL`. -/
def Database.Clear (d : Database) : Step → Prop
  | .request _ _ r => r.Clear d.server.store
  | _ => True

/-- What holds of a database throughout a run. -/
structure Database.Good (d : Database) : Prop where
  sound : Sound d.server.store
  tree : d.server.store.Tree
  destroyed : ∀ i ∈ d.destroyed, ∀ k, ¬ d.server.store.Lists k i

variable {d d' : Database} {a : Step}

theorem Store.Tree.of_dir (tree : s.Tree) (dir : t.dir = s.dir) (leaked : s.leaked ⊆ t.leaked) :
    t.Tree := by
  rw [Tree, dir]
  exact tree.weaken fun x top => top.imp_right fun old => leaked old

theorem Database.Good.empty : Database.empty.Good where
  sound := Sound.empty
  tree := by
    have nothing : ∀ i, Store.empty.dir i = none := fun i => if_neg (Nat.not_lt_zero i)
    have no_lists : ∀ i j, ¬ Store.empty.Lists i j := by
      rintro i j ⟨b, there, -⟩
      rw [nothing] at there
      cases there
    constructor
    case child => exact fun i j listed => absurd listed (no_lists i j)
    case nodup =>
      intro i b there
      cases (nothing i).symm.trans there
    case acyclic => exact fun i => not_transGen_of_leaf (no_lists i)
    case rooted =>
      intro j c there
      cases (nothing j).symm.trans there
  destroyed := fun i mem => absurd mem List.not_mem_nil

theorem Database.Good.next (good : d.Good) (clear : d.Clear a) (taken : d.next a = some d') :
    d'.Good := by
  obtain ⟨sound, tree, destroyed⟩ := good
  cases a with
  | root w again =>
    cases taken
    obtain ⟨sound', leaked, same | ⟨fresh, inst, made⟩⟩ := @root_spec d.server.store w again sound
    · exact ⟨sound', tree.of_dir same leaked, by rw [Store.Lists, same]; exact destroyed⟩
    have lists : (d.server.store.root w again).2.Lists = d.server.store.Lists := by
      rw [Store.Lists, made]
      apply lists_update_leaf
      · rintro x ⟨b, there, -⟩
        cases fresh.symm.trans there
      · intro c root
        rw [← some.inj root]
        rfl
    refine ⟨sound', ?_, by rw [lists]; exact destroyed⟩
    rw [Store.Tree, made]
    apply (tree.addLeaf fresh rfl (.inl rfl)).weaken
    exact fun x top => top.imp_right fun old => leaked old
  | read i =>
    cases taken
    obtain ⟨-, sound', records, highest, -, leaked⟩ := @objLookupRead_spec d.server.store i sound
    have same := dir_congr records highest
    exact ⟨sound', tree.of_dir same leaked, by rw [Store.Lists, same]; exact destroyed⟩
  | request auth w r =>
    cases auth with
    | error status =>
      cases taken
      exact ⟨sound, tree, destroyed⟩
    | ok user =>
      obtain ⟨keeps, effect⟩ := @perform_effect d.server.store w user r sound clear
      simp only [Database.next, Server.serve] at taken
      generalize d.server.store.perform user w r = answer at *
      obtain ⟨result, store⟩ := answer
      obtain ⟨tree', lists⟩ := effect.tree keeps tree
      cases result with
      | error status =>
        cases taken
        refine ⟨keeps.sound, tree', fun i mem k new => ?_⟩
        rcases lists k i new with old | ⟨_, _, _, _, _, -, failed, -⟩
        · exact destroyed i mem k old
        · cases failed
      | ok reply =>
        cases taken
        refine ⟨keeps.sound, tree', fun i mem k new => ?_⟩
        have old_or_child := lists k i new
        cases r with
        | create parentId props place target =>
          obtain ⟨mem, notChild⟩ := List.mem_filter.mp mem
          rcases old_or_child with old | ⟨_, _, _, _, reply', -, same, isChild⟩
          · exact destroyed i mem k old
          · obtain rfl : reply = reply' := by injection same
            exact of_decide_eq_true notChild isChild
        | destroy parentId selfId =>
          rcases List.mem_cons.mp mem with rfl | mem
          · exact effect.unlisted keeps tree k new
          · rcases old_or_child with old | ⟨_, _, _, _, _, isCreate, -⟩
            · exact destroyed i mem k old
            · cases isCreate
        | _ =>
          rcases old_or_child with old | ⟨_, _, _, _, _, isCreate, -⟩
          · exact destroyed i mem k old
          · cases isCreate

/-- After any run on a new database, whatever becomes of the writes: an id in a list is that of a
directory whose parent is the lister; it is in no list twice and in no other list; no directory is
below itself; an id that was destroyed is in no list; and a directory that is not below the root is
below one for which `file_idunalloc` failed. -/
theorem directories_form_tree (run : Run Database.next Database.Clear Database.empty d) :
    (∀ i j, d.server.store.Lists i j →
      ∃ child, d.server.store.dir j = some child ∧ child.parent = i) ∧
    (∀ i obj, d.server.store.dir i = some obj → obj.children.Nodup) ∧
    (∀ i i' j, d.server.store.Lists i j → d.server.store.Lists i' j → i = i') ∧
    (∀ i, ¬ TransGen d.server.store.Lists i i) ∧
    (∀ i ∈ d.destroyed, ∀ j, ¬ d.server.store.Lists j i) ∧
    (∀ i obj, d.server.store.dir i = some obj → ReflTransGen d.server.store.Lists 0 i ∨
      ∃ j ∈ d.server.store.leaked, ReflTransGen d.server.store.Lists j i) := by
  obtain ⟨-, tree, destroyed⟩ : d.Good :=
    run.invariant Database.Good.empty fun good clear taken => good.next clear taken
  refine ⟨tree.child, tree.nodup, fun i i' j => tree.eq_of_lists, tree.acyclic, destroyed, ?_⟩
  intro i obj there
  obtain ⟨t, rfl | leaked, -, below⟩ := tree.rooted i obj there
  · exact .inl below
  · exact .inr ⟨t, leaked, below⟩

/-- A root is made, and a directory in it. -/
theorem directories_form_tree_child : ∃ d, Run Database.next Database.Clear Database.empty d ∧
    d.server.store.Lists 0 1 ∧ (∃ child, d.server.store.dir 1 = some child ∧ child.parent = 0) ∧
    ∀ i, i ≠ 0 → ¬ d.server.store.Lists i 1 := by
  obtain ⟨d, made, highest, root⟩ : ∃ d,
      Database.empty.next (.root all all) = some d ∧
      d.server.store.highestId = 1 ∧
      d.server.store.dir 0 = some ⟨⟨0, 1⟩, 0, [], []⟩ := ⟨_, rfl, rfl, rfl⟩
  have clear : d.Clear (.request (.ok (some accessUserSuper)) all
      (.create ⟨0, 1⟩ [] 0 none)) := by
    intro i obj there _
    have below := lt_of_dir there
    rw [highest] at below
    obtain rfl := Nat.lt_one_iff.mp below
    rw [root] at there
    rw [← some.inj there]
    decide
  have listed : ((Database.empty.next (.root all all)).bind fun d =>
      d.next (.request (.ok (some accessUserSuper)) all (.create ⟨0, 1⟩ [] 0 none))).any
      (fun d => decide (d.server.store.Lists 0 1)) = true := by decide +kernel
  rw [made, bind_some] at listed
  cases created : d.next (.request (.ok (some accessUserSuper)) all
      (.create ⟨0, 1⟩ [] 0 none)) with
  | none =>
    rw [created] at listed
    cases listed
  | some d' =>
    rw [created] at listed
    have listed := of_decide_eq_true listed
    have run := Run.step (Run.step .start trivial made) clear created
    obtain ⟨child, -, other, -⟩ := directories_form_tree run
    exact ⟨d', run, listed, child 0 1 listed, fun i notRoot listed' =>
      notRoot (other i 0 1 listed' listed)⟩

/-- A root, a directory in it, one with the instance `NI_INDEX_NULL`, and one that the first takes
up. -/
def reuseSteps : List Step :=
  [.root all all,
    .request (.ok (some accessUserSuper)) all (.create ⟨0, 1⟩ [] 0 none),
    .request (.ok (some accessUserSuper)) all (.create ⟨0, 2⟩ [] 0 (some ⟨2, 2 ^ 32 - 1⟩)),
    .request (.ok (some accessUserSuper)) all (.create ⟨1, 1⟩ [] 0 none)]

/-- With a directory whose instance is `NI_INDEX_NULL` the next one is made over it, and has two
parents. -/
theorem reused_id_in_two_lists :
    ∃ d, Run Database.next (fun _ _ => True) Database.empty d ∧
      d.server.store.Lists 0 2 ∧ d.server.store.Lists 1 2 := by
  have both : (runActions Database.next Database.empty reuseSteps).any (fun d =>
      decide (d.server.store.Lists 0 2 ∧ d.server.store.Lists 1 2)) = true := by decide +kernel
  cases taken : runActions Database.next Database.empty reuseSteps with
  | none =>
    rw [taken] at both
    cases both
  | some d =>
    rw [taken] at both
    exact ⟨d, run_of_runActions taken, of_decide_eq_true both⟩

end Runs

end Darwin.Netinfo
