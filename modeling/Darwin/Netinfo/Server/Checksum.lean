import Mathlib.Data.Nat.ModEq
import Mathlib.Algebra.BigOperators.Group.List.Basic
import Darwin.Netinfo.Server.Tree

/-!
# The checksum of the database

`checksum.c` sums up the instances of all directories in the tree, weighted by their ids.  The sum
is computed once when the server starts; afterwards each procedure that succeeds adjusts it by what
it has done, going by its arguments and results.

## Main results

* `checksum_exact` - after any run the running sum is the one that would be computed from scratch
* `checksum_differs` - it is not where a directory is made over another one
-/

namespace Darwin.Netinfo

open List Option Store Database
open Function (update update_of_ne update_self)
open Darwin.Lib Relation

variable {s s' t : Store} {i j p : ℕ} {m n c : ℕ} {l : List ℕ}

/-- `compute_it`, with a bound on the depth of the recursion. -/
def Store.computeIt : ℕ → Store → ℕ → ℕ → ℕ × Store
  | 0, s, checksum, _ => (checksum, s)
  | n + 1, s, checksum, i =>
    -- `ni_self`
    match s.objLookupRead i with
    | (.error _, s₁) => (checksum, s₁)
    | (.ok self, s₁) =>
      -- `ni_children`
      match s₁.objLookupRead i with
      | (.error _, s₂) => (checksum, s₂)
      | (.ok obj, s₂) =>
        obj.children.foldl (fun sum child => computeIt n sum.2 sum.1 child)
          (checksumAdd checksum self.id, s₂)

/-- What a directory contributes to the sum. -/
def Store.weight (s : Store) (i : ℕ) : ℕ :=
  match s.dir i with
  | some obj => (i + 1) * obj.id.inst
  | none => 0

/-- The list has the directories of the tree, each once. -/
structure Store.Tree.Listed (s : Store) (l : List ℕ) : Prop where
  nodup : l.Nodup
  mem : ∀ j, j ∈ l ↔ (∃ obj, s.dir j = some obj) ∧ ReflTransGen s.Lists 0 j

/-! ## Computing the sum -/

section Compute

theorem weight_of_dir {obj : Object} (there : s.dir i = some obj) :
    s.weight i = (i + 1) * obj.id.inst := by
  rw [weight, there]

theorem weight_congr (dir : s'.dir = s.dir) : s'.weight = s.weight := by
  funext i
  rw [weight, weight, dir]

theorem computeIt_spec (sound : Sound s) :
    (computeIt n s c i).1 ≡
        c + ((preorder Object.children s.dir n i).map s.weight).sum [MOD 2 ^ 32] ∧
      Sound (computeIt n s c i).2 ∧ (computeIt n s c i).2.dir = s.dir := by
  induction n generalizing s c i with
  | zero => exact ⟨rfl, sound, rfl⟩
  | succ n ih =>
    obtain ⟨result₁, sound₁, records₁, highest₁, -⟩ := @objLookupRead_spec s i sound
    unfold computeIt
    generalize s.objLookupRead i = found at *
    obtain ⟨r₁, s₁⟩ := found
    have dir₁ := dir_congr records₁ highest₁
    cases there : s.dir i with
    | none =>
      rw [there] at result₁
      subst result₁
      rw [preorder_eq_nil there]
      exact ⟨rfl, sound₁, dir₁⟩
    | some obj =>
      rw [there] at result₁
      subst result₁
      obtain ⟨result₂, sound₂, records₂, highest₂, -⟩ := @objLookupRead_spec s₁ i sound₁
      dsimp only
      generalize s₁.objLookupRead i = found at *
      obtain ⟨r₂, s₂⟩ := found
      rw [dir₁, there] at result₂
      subst result₂
      have dir₂ := (dir_congr records₂ highest₂).trans dir₁
      -- the children, one after the other
      have children : ∀ (l : List ℕ) (c : ℕ) (s' : Store), Sound s' → s'.dir = s.dir →
          (l.foldl (fun sum child => computeIt n sum.2 sum.1 child) (c, s')).1 ≡
              c + ((l.flatMap (preorder Object.children s.dir n)).map s.weight).sum
              [MOD 2 ^ 32] ∧
            Sound (l.foldl (fun sum child => computeIt n sum.2 sum.1 child) (c, s')).2 ∧
            (l.foldl (fun sum child => computeIt n sum.2 sum.1 child) (c, s')).2.dir =
              s.dir := by
        intro l
        induction l with
        | nil => exact fun c s' sound' dir' => ⟨rfl, sound', dir'⟩
        | cons child l ih' =>
          intro c s' sound' dir'
          obtain ⟨sum, sound'', dir''⟩ := @ih s' child c sound'
          rw [dir', weight_congr dir'] at sum
          obtain ⟨rest, sound₃, dir₃⟩ := ih' _ _ sound'' (dir''.trans dir')
          refine ⟨?_, sound₃, dir₃⟩
          rw [foldl_cons, flatMap_cons, map_append, sum_append, ← add_assoc]
          exact rest.trans (sum.add_right _)
      obtain ⟨sum, sound₃, dir₃⟩ :=
        children obj.children (checksumAdd c obj.id) s₂ sound₂ dir₂
      refine ⟨?_, sound₃, dir₃⟩
      rw [preorder_succ there, map_cons, sum_cons, weight_of_dir there, ← id_of_dir there,
        ← add_assoc]
      exact sum.trans ((Nat.mod_modEq _ _).add_right _)

/-- Deep enough, each directory of the tree is counted once. -/
theorem exists_listed (tree : s.Tree) :
    ∃ n, ∀ m, n ≤ m → Tree.Listed s (preorder Object.children s.dir m 0) := by
  obtain ⟨n, enough⟩ := @exists_depth ℕ Object Object.children s.dir 0 (List.range s.highestId)
  refine ⟨n, fun m le => ⟨tree.nodup_preorder, fun j => ⟨fun mem => ?_, ?_⟩⟩⟩
  · exact ⟨exists_of_mem_preorder mem, below_of_mem_preorder mem⟩
  · rintro ⟨⟨obj, there⟩, below⟩
    exact enough m le j (mem_range.mpr (lt_of_dir there)) obj there below

theorem Store.Tree.Listed.perm {l' : List ℕ} (first : Tree.Listed s l)
    (second : Tree.Listed s l') : l.Perm l' :=
  (perm_ext_iff_of_nodup first.nodup second.nodup).mpr fun j =>
    (first.mem j).trans (second.mem j).symm

theorem computeIt_eq_sum (sound : Sound s) (tree : s.Tree) (listed : Tree.Listed s l) :
    ∃ n, ∀ m, n ≤ m → (computeIt m s 0 0).1 ≡ (l.map s.weight).sum [MOD 2 ^ 32] := by
  obtain ⟨n, enough⟩ := exists_listed tree
  refine ⟨n, fun m le => ?_⟩
  have sum := (@computeIt_spec s 0 m 0 sound).1
  rw [zero_add, (((enough m le).perm listed).map s.weight).sum_eq] at sum
  exact sum

end Compute

/-! ## Adjusting the sum -/

section Adjust

variable {id : Id} {r : Request} {result : Except Status Reply} {f g : ℕ → ℕ}

/-- A sum over a list in which one element is worth more than before. -/
theorem sum_map_add (nodup : l.Nodup) (mem : p ∈ l) (same : ∀ j ∈ l, j ≠ p → g j = f j)
    (more : g p ≡ f p + c [MOD m]) : (l.map g).sum ≡ (l.map f).sum + c [MOD m] := by
  have perm := perm_cons_erase mem
  have rest : (l.erase p).map g = (l.erase p).map f := by
    apply map_congr_left
    intro j mem
    obtain ⟨other, mem⟩ := nodup.mem_erase_iff.mp mem
    exact same j mem other
  rw [(perm.map g).sum_eq, (perm.map f).sum_eq, map_cons, map_cons, sum_cons,
    sum_cons, rest, add_right_comm]
  exact more.add_right _

theorem bump_modEq (i inst : ℕ) :
    (i + 1) * bump inst ≡ (i + 1) * inst + (i + 1) [MOD 2 ^ 32] := by
  rw [← Nat.mul_succ]
  exact (Nat.mod_modEq _ _).mul_left _

theorem checksumInc_modEq : checksumInc c id ≡ c + (id.object + 1) [MOD 2 ^ 32] :=
  Nat.mod_modEq _ _

theorem checksumAdd_modEq : checksumAdd c id ≡ c + (id.object + 1) * id.inst [MOD 2 ^ 32] :=
  Nat.mod_modEq _ _

theorem checksumRem_modEq : checksumRem c id + (id.object + 1) * id.inst ≡ c [MOD 2 ^ 32] := by
  have below : (id.object + 1) * id.inst % 2 ^ 32 ≤ 2 ^ 32 :=
    le_of_lt (Nat.mod_lt _ (Nat.two_pow_pos 32))
  calc checksumRem c id + (id.object + 1) * id.inst
      ≡ c + (2 ^ 32 - (id.object + 1) * id.inst % 2 ^ 32) + (id.object + 1) * id.inst
        [MOD 2 ^ 32] := (Nat.mod_modEq _ _).add_right _
    _ ≡ c + (2 ^ 32 - (id.object + 1) * id.inst % 2 ^ 32) + (id.object + 1) * id.inst % 2 ^ 32
        [MOD 2 ^ 32] := (Nat.mod_modEq _ _).symm.add_left _
    _ = c + 2 ^ 32 := by rw [add_assoc, Nat.sub_add_cancel below]
    _ ≡ c [MOD 2 ^ 32] := Nat.add_modEq_right

/-- The weight of a directory that was committed. -/
theorem weight_committed {obj obj' : Object} (there : s.dir p = some obj)
    (committed : t.dir p = some obj') (inst : obj'.id.inst = bump obj.id.inst) :
    t.weight p ≡ s.weight p + (p + 1) [MOD 2 ^ 32] := by
  rw [weight_of_dir committed, weight_of_dir there, inst]
  exact bump_modEq _ _

theorem weight_eq_of_dir (same : t.dir j = s.dir j) : t.weight j = s.weight j := by
  rw [weight, weight, same]

/-- What is asked of the tree: it has a root that nobody lists. -/
structure Store.Rooted (s : Store) : Prop where
  root : ∃ obj, s.dir 0 = some obj
  unlisted : ∀ k, ¬ s.Lists k 0

/-- The tree has a list of its directories whose weights add up to `c`. -/
def Store.SumsTo (s : Store) (c : ℕ) : Prop :=
  ∃ l, Tree.Listed s l ∧ (l.map s.weight).sum ≡ c [MOD 2 ^ 32]

variable {parent : Object} {props : List Property} {place : ℕ}

/-- A directory outside the tree does not matter. -/
theorem sum_orphaned {child : Object} (tree : s.Tree) (rooted : s.Rooted)
    (fresh : s.dir child.id.object = none) (leaf : child.children = [])
    (dir : t.dir = update s.dir child.id.object (some child)) (sum : s.SumsTo c) :
    t.Rooted ∧ t.SumsTo c := by
  obtain ⟨l, listed, sum⟩ := sum
  have lists : t.Lists = s.Lists := by
    rw [Store.Lists, dir]
    apply lists_update_leaf
    · rintro x ⟨b, there, -⟩
      cases fresh.symm.trans there
    · intro c same
      rw [← some.inj same]
      exact leaf
  have notRoot : (0 : ℕ) ≠ child.id.object := by
    intro same
    obtain ⟨obj, there⟩ := rooted.root
    rw [same, fresh] at there
    cases there
  have absent : ∀ j, ReflTransGen s.Lists 0 j → j ≠ child.id.object := by
    rintro j below rfl
    rcases below.cases_tail with same | ⟨k, -, last⟩
    · exact notRoot same.symm
    · exact not_lists_fresh tree fresh k last
  have kept : ∀ j, j ≠ child.id.object → t.dir j = s.dir j := by
    intro j other
    rw [dir, update_of_ne other]
  refine ⟨⟨?_, lists ▸ rooted.unlisted⟩, l, ⟨listed.nodup, ?_⟩, ?_⟩
  · rw [kept 0 notRoot]
    exact rooted.root
  · intro j
    rw [lists, listed.mem j]
    apply and_congr_left
    intro below
    rw [kept j (absent j below)]
  · have same : l.map t.weight = l.map s.weight := by
      apply map_congr_left
      intro j mem
      exact weight_eq_of_dir (kept j (absent j ((listed.mem j).mp mem).2))
    rw [same]
    exact sum

/-- A new directory and the commit of its parent. -/
theorem sum_created (tree : s.Tree) (rooted : s.Rooted)
    (there : s.dir parent.id.object = some parent) (above : ReflTransGen s.Lists 0 parent.id.object)
    (fresh : s.dir id.object = none)
    (dir : t.dir = update (update s.dir id.object (some (newChild id parent props).bumped))
      parent.id.object (some (withChild parent id.object place).bumped))
    (sum : s.SumsTo c) :
    t.Rooted ∧ t.SumsTo (c + (parent.id.object + 1) + (id.object + 1) * bump id.inst) := by
  obtain ⟨l, listed, sum⟩ := sum
  obtain ⟨-, lists⟩ := tree.create there fresh dir
  have other : parent.id.object ≠ id.object := by
    intro same
    rw [same, fresh] at there
    cases there
  have no_kids : ∀ k, ¬ t.Lists id.object k := by
    intro k listed'
    rcases (lists id.object k).mp listed' with ⟨b, found, -⟩ | ⟨same, -⟩
    · cases fresh.symm.trans found
    · exact other same.symm
  have below_iff := fun j => @reflTransGen_attach _ _ _ s.Lists t.Lists 0 j lists no_kids above
  have child_there : t.dir id.object = some (newChild id parent props).bumped := by
    rw [dir, update_of_ne (Ne.symm other), update_self]
  have parent_there : t.dir parent.id.object =
      some (withChild parent id.object place).bumped := by
    rw [dir, update_self]
  have kept : ∀ j, j ≠ id.object → j ≠ parent.id.object → t.dir j = s.dir j := by
    intro j notChild notParent
    rw [dir, update_of_ne notParent, update_of_ne notChild]
  have is_dir : ∀ j, (∃ obj, t.dir j = some obj) ↔ (∃ obj, s.dir j = some obj) ∨
      j = id.object := by
    intro j
    by_cases isChild : j = id.object
    · rw [isChild, child_there]
      exact iff_of_true ⟨_, rfl⟩ (.inr rfl)
    by_cases isParent : j = parent.id.object
    · rw [isParent, parent_there, there]
      exact iff_of_true ⟨_, rfl⟩ (.inl ⟨_, rfl⟩)
    · rw [kept j isChild isParent, or_iff_left isChild]
  have absent : id.object ∉ l := by
    intro mem
    obtain ⟨⟨obj, found⟩, -⟩ := (listed.mem _).mp mem
    cases fresh.symm.trans found
  refine ⟨⟨(is_dir 0).mpr (.inl rooted.root), ?_⟩, id.object :: l,
    ⟨nodup_cons.mpr ⟨absent, listed.nodup⟩, ?_⟩, ?_⟩
  · intro k listed'
    rcases (lists k 0).mp listed' with old | ⟨-, isChild⟩
    · exact rooted.unlisted k old
    · obtain ⟨obj, found⟩ := rooted.root
      rw [isChild, fresh] at found
      cases found
  · intro j
    rw [mem_cons, listed.mem, is_dir, below_iff]
    constructor
    · rintro (isChild | ⟨found, below⟩)
      · exact ⟨.inr isChild, .inr isChild⟩
      · exact ⟨.inl found, .inl below⟩
    rintro ⟨found | isChild, below | isChild'⟩
    · exact .inr ⟨found, below⟩
    · exact .inl isChild'
    · exact .inl isChild
    · exact .inl isChild
  · have mem : parent.id.object ∈ l := (listed.mem _).mpr ⟨⟨parent, there⟩, above⟩
    have same : ∀ j ∈ l, j ≠ parent.id.object → t.weight j = s.weight j := by
      intro j mem notParent
      refine weight_eq_of_dir (kept j ?_ notParent)
      rintro rfl
      exact absent mem
    have added := sum_map_add listed.nodup mem same (weight_committed there parent_there rfl)
    have childWeight : t.weight id.object = (id.object + 1) * bump id.inst :=
      weight_of_dir child_there
    rw [map_cons, sum_cons, childWeight, add_comm]
    exact (added.trans (sum.add_right _)).add_right _

/-- The commit of a directory that lets go of another one. -/
theorem sum_destroyed {child : Object} {leaked : List ℕ} (tree : s.Tree) (rooted : s.Rooted)
    (there : s.dir p = some parent) (above : ReflTransGen s.Lists 0 p)
    (inList : j ∈ parent.children) (child_there : s.dir j = some child)
    (leaf : child.children = []) (more : s.leaked ⊆ leaked)
    (gone : t.dir j = none ∨ t.dir j = s.dir j ∧ j ∈ leaked)
    (dir : t.dir = update (update s.dir p (some (withoutChild parent j).bumped)) j (t.dir j))
    (sum : s.SumsTo c) (after : n + (j + 1) * child.id.inst ≡ c + (p + 1) [MOD 2 ^ 32]) :
    t.Rooted ∧ t.SumsTo n := by
  obtain ⟨l, listed, sum⟩ := sum
  have leaf' : ∀ child, s.dir j = some child → child.children = [] := by
    intro child' found
    rw [child_there] at found
    rw [← some.inj found]
    exact leaf
  obtain ⟨-, lists⟩ := tree.destroy there inList leaf' more gone dir
  have is_listed : s.Lists p j := lists_of_eq_some there inList
  have no_kids : ∀ k, ¬ s.Lists j k := not_lists_of_kids leaf'
  have notRoot : (0 : ℕ) ≠ j := by
    rintro rfl
    exact rooted.unlisted p is_listed
  have other : p ≠ j := by
    rintro rfl
    exact no_kids p is_listed
  have below_iff := fun y => @reflTransGen_detach _ j s.Lists t.Lists 0 y lists no_kids notRoot
  have parent_there : t.dir p = some (withoutChild parent j).bumped := by
    rw [dir, update_of_ne other, update_self]
  have kept : ∀ x, x ≠ j → x ≠ p → t.dir x = s.dir x := by
    intro x notChild notParent
    rw [dir, update_of_ne notChild, update_of_ne notParent]
  have is_dir : ∀ x, x ≠ j → ((∃ obj, t.dir x = some obj) ↔ ∃ obj, s.dir x = some obj) := by
    intro x notChild
    by_cases isParent : x = p
    · rw [isParent, parent_there, there]
      exact iff_of_true ⟨_, rfl⟩ ⟨_, rfl⟩
    · rw [kept x notChild isParent]
  refine ⟨⟨(is_dir 0 notRoot).mpr rooted.root, ?_⟩, l.erase j, ⟨listed.nodup.erase j, ?_⟩, ?_⟩
  · exact fun k listed' => rooted.unlisted k ((lists k 0).mp listed').1
  · intro x
    rw [listed.nodup.mem_erase_iff, listed.mem, below_iff]
    constructor
    · rintro ⟨notChild, found, below⟩
      exact ⟨(is_dir x notChild).mpr found, below, notChild⟩
    · rintro ⟨found, below, notChild⟩
      exact ⟨notChild, (is_dir x notChild).mp found, below⟩
  · have parent_mem : p ∈ l.erase j :=
      listed.nodup.mem_erase_iff.mpr ⟨other, (listed.mem p).mpr ⟨⟨parent, there⟩, above⟩⟩
    have child_mem : j ∈ l := (listed.mem j).mpr ⟨⟨child, child_there⟩, above.tail is_listed⟩
    have same : ∀ x ∈ l.erase j, x ≠ p → t.weight x = s.weight x := by
      intro x mem notParent
      exact weight_eq_of_dir (kept x (listed.nodup.mem_erase_iff.mp mem).1 notParent)
    have added := sum_map_add (listed.nodup.erase j) parent_mem same
      (weight_committed there parent_there rfl)
    have before : (l.map s.weight).sum =
        ((l.erase j).map s.weight).sum + (j + 1) * child.id.inst := by
      rw [((perm_cons_erase child_mem).map s.weight).sum_eq, map_cons, sum_cons,
        weight_of_dir child_there, add_comm]
    rw [before] at sum
    apply Nat.ModEq.add_right_cancel' ((j + 1) * child.id.inst)
    calc ((l.erase j).map t.weight).sum + (j + 1) * child.id.inst
        ≡ ((l.erase j).map s.weight).sum + (p + 1) + (j + 1) * child.id.inst [MOD 2 ^ 32] :=
          added.add_right _
      _ = ((l.erase j).map s.weight).sum + (j + 1) * child.id.inst + (p + 1) :=
          add_right_comm _ _ _
      _ ≡ c + (p + 1) [MOD 2 ^ 32] := sum.add_right _
      _ ≡ n + (j + 1) * child.id.inst [MOD 2 ^ 32] := after.symm

/-- The commit of a directory with other properties. -/
theorem sum_modified {obj obj' : Object} (rooted : s.Rooted) (there : s.dir p = some obj)
    (above : ReflTransGen s.Lists 0 p) (children : obj'.children = obj.children)
    (inst : obj'.id.inst = bump obj.id.inst)
    (dir : t.dir = update s.dir p (some obj')) (sum : s.SumsTo c) :
    t.Rooted ∧ t.SumsTo (c + (p + 1)) := by
  obtain ⟨l, listed, sum⟩ := sum
  have lists : t.Lists = s.Lists := by
    rw [Store.Lists, dir]
    exact lists_update_kids there children
  have committed : t.dir p = some obj' := by rw [dir, update_self]
  have is_dir : ∀ x, (∃ obj, t.dir x = some obj) ↔ ∃ obj, s.dir x = some obj := by
    intro x
    by_cases self : x = p
    · rw [self, committed, there]
      exact iff_of_true ⟨_, rfl⟩ ⟨_, rfl⟩
    · rw [dir, update_of_ne self]
  refine ⟨⟨(is_dir 0).mpr rooted.root, lists ▸ rooted.unlisted⟩, l, ⟨listed.nodup, ?_⟩, ?_⟩
  · intro x
    rw [listed.mem, lists, is_dir]
  have mem : p ∈ l := (listed.mem p).mpr ⟨⟨obj, there⟩, above⟩
  have same : ∀ x ∈ l, x ≠ p → t.weight x = s.weight x := by
    intro x _ other
    apply weight_eq_of_dir
    rw [dir, update_of_ne other]
  have added := sum_map_add listed.nodup mem same (weight_committed there committed inst)
  exact added.trans (sum.add_right _)

theorem Store.SumsTo.congr (sum : s.SumsTo c) (same : c ≡ n [MOD 2 ^ 32]) : s.SumsTo n := by
  obtain ⟨l, listed, sum⟩ := sum
  exact ⟨l, listed, sum.trans same⟩

/-- The running sum after a procedure. -/
def Request.checksumAfter (r : Request) (checksum : ℕ) : Except Status Reply → ℕ
  | .ok reply => r.checksum checksum reply
  | .error _ => checksum

/-- A request that succeeds adjusts the sum by what it has done. -/
theorem Effect.sum (effect : Effect s t r result) (keeps : Keeps s t) (tree : s.Tree)
    (rooted : s.Rooted)
    (inside : ∀ obj, s.dir r.self.object = some obj → ReflTransGen s.Lists 0 r.self.object)
    (sum : s.SumsTo c) :
    t.Rooted ∧ t.SumsTo (r.checksumAfter c result) := by
  cases effect with
  | kept dir =>
    obtain ⟨l, listed, sum⟩ := sum
    have lists : t.Lists = s.Lists := by rw [Store.Lists, dir]
    refine ⟨⟨dir ▸ rooted.root, lists ▸ rooted.unlisted⟩, l, ⟨listed.nodup, ?_⟩, ?_⟩
    · rw [lists, dir]
      exact listed.mem
    · rw [weight_congr dir]
      exact sum
  | orphaned child fresh leaf leaked dir => exact sum_orphaned tree rooted fresh leaf dir sum
  | @created parentId props place target parent id there own fresh chosen dir =>
    subst own
    obtain ⟨rooted', sum'⟩ := sum_created tree rooted there (inside parent there) fresh dir sum
    refine ⟨rooted', sum'.congr ?_⟩
    have inc := @checksumInc_modEq c ⟨parent.id.object, bump parent.id.inst⟩
    have add := @checksumAdd_modEq (checksumInc c ⟨parent.id.object, bump parent.id.inst⟩)
      ⟨id.object, bump id.inst⟩
    exact (add.trans (inc.add_right _)).symm
  | @destroyed parentId selfId reply parent there own inList current leaf gone dir self =>
    obtain ⟨child, child_there, -⟩ := tree.child _ _ (lists_of_eq_some there inList)
    refine sum_destroyed tree rooted there (inside parent there) inList child_there
      (leaf child child_there) keeps.leaked gone dir sum ?_
    have same := current child child_there
    have inc : checksumInc c reply.self ≡ c + (parentId.object + 1) [MOD 2 ^ 32] := by
      rw [self]
      exact checksumInc_modEq
    rw [same]
    exact checksumRem_modEq.trans inc
  | modified obj props there own dir self modifies =>
    obtain ⟨rooted', sum'⟩ :=
      @sum_modified s t _ c obj (Object.bumped { obj with props := props }) rooted there (inside obj there) rfl rfl dir sum
    refine ⟨rooted', sum'.congr ?_⟩
    rw [Request.checksumAfter, checksum_of_modifies modifies, self]
    exact checksumInc_modEq.symm

end Adjust

/-! ## Runs -/

section Runs

variable {d d' : Database} {a : Step}

/-- What is asked of a step: no directory that it could take for a free one has the instance
`NI_INDEX_NULL`, and the directory that it names is not one outside the tree. -/
def Database.Fair (d : Database) (a : Step) : Prop :=
  d.Clear a ∧ ∀ auth w r, a = .request auth w r → ∀ obj,
    d.server.store.dir r.self.object = some obj → ReflTransGen d.server.store.Lists 0 r.self.object

/-- What holds of a database throughout a run. -/
structure Database.Summed (d : Database) : Prop where
  sound : Sound d.server.store
  tree : d.server.store.Tree
  rooted : d.server.store.Rooted
  sum : d.server.store.SumsTo d.server.dbChecksum

theorem Database.Summed.of_dir {store : Store} (summed : d.Summed) (sound : Sound store)
    (dir : store.dir = d.server.store.dir) (leaked : d.server.store.leaked ⊆ store.leaked) :
    Summed { d with server.store := store } := by
  have lists : store.Lists = d.server.store.Lists := by rw [Store.Lists, dir]
  obtain ⟨l, listed, sum⟩ := summed.sum
  refine ⟨sound, summed.tree.of_dir dir leaked, ⟨?_, ?_⟩, l, ⟨listed.nodup, ?_⟩, ?_⟩
  · exact dir ▸ summed.rooted.root
  · exact lists ▸ summed.rooted.unlisted
  · intro j
    rw [listed.mem, lists, dir]
  · rw [weight_congr dir]
    exact sum

theorem Database.Summed.next (summed : d.Summed) (fair : d.Fair a) (taken : d.next a = some d') :
    d'.Summed := by
  cases a with
  | root w again =>
    cases taken
    obtain ⟨sound', leaked, same | ⟨fresh, -⟩⟩ := @root_spec d.server.store w again summed.sound
    · exact summed.of_dir sound' same leaked
    · obtain ⟨obj, there⟩ := summed.rooted.root
      cases fresh.symm.trans there
  | read i =>
    cases taken
    obtain ⟨-, sound', records, highest, -, leaked⟩ :=
      @objLookupRead_spec d.server.store i summed.sound
    exact summed.of_dir sound' (dir_congr records highest) leaked
  | request auth w r =>
    cases auth with
    | error status =>
      cases taken
      exact summed
    | ok user =>
      obtain ⟨keeps, effect⟩ := @perform_effect d.server.store w user r summed.sound fair.1
      simp only [next, Server.serve] at taken
      generalize d.server.store.perform user w r = answer at *
      obtain ⟨result, store⟩ := answer
      obtain ⟨tree', -⟩ := effect.tree keeps summed.tree
      obtain ⟨rooted', sum'⟩ := effect.sum keeps summed.tree summed.rooted
        (fair.2 _ w r rfl) summed.sum
      cases result with
      | error status =>
        cases taken
        exact ⟨keeps.sound, tree', rooted', sum'⟩
      | ok reply =>
        cases taken
        exact ⟨keeps.sound, tree', rooted', sum'⟩

/-- On a database whose directories form a tree and whose sum is right, the running sum stays the
one that `compute_it` would find, which is that over the directories in the tree. -/
theorem checksum_exact (sound : Sound d.server.store) (tree : d.server.store.Tree)
    (rooted : d.server.store.Rooted)
    (initially : ∃ n, ∀ m, n ≤ m →
      (computeIt m d.server.store 0 0).1 ≡ d.server.dbChecksum [MOD 2 ^ 32])
    (run : Run next Fair d d') :
    (∃ n, ∀ m, n ≤ m →
      (computeIt m d'.server.store 0 0).1 ≡ d'.server.dbChecksum [MOD 2 ^ 32]) ∧
    ∃ l : List ℕ, l.Nodup ∧ (∀ j, j ∈ l ↔ (∃ obj, d'.server.store.dir j = some obj) ∧
        ReflTransGen d'.server.store.Lists 0 j) ∧
      (l.map d'.server.store.weight).sum ≡ d'.server.dbChecksum [MOD 2 ^ 32] := by
  have summed : d.Summed := by
    refine ⟨sound, tree, rooted, ?_⟩
    obtain ⟨n, listed⟩ := exists_listed tree
    obtain ⟨n', exact⟩ := initially
    obtain ⟨n'', sum⟩ := computeIt_eq_sum sound tree (listed n (le_refl n))
    refine ⟨_, listed n (le_refl n), ?_⟩
    have first := sum (max n' n'') (le_max_right _ _)
    exact first.symm.trans (exact _ (le_max_left _ _))
  obtain ⟨sound', tree', rooted', l, listed, sum⟩ : d'.Summed :=
    run.invariant summed fun summed fair taken => summed.next fair taken
  refine ⟨?_, l, listed.nodup, listed.mem, sum⟩
  obtain ⟨n, enough⟩ := computeIt_eq_sum sound' tree' listed
  exact ⟨n, fun m le => (enough m le).trans sum⟩

/-- A database with nothing but a root. -/
def Database.new : Database := ⟨Server.new, []⟩

theorem Database.new_good : new.Good := by
  have made : empty.next (.root Writes.all Writes.all) =
      some ⟨⟨new.server.store, 0⟩, []⟩ := rfl
  have clear : empty.Clear (.root Writes.all Writes.all) := trivial
  obtain ⟨sound, tree, destroyed⟩ := Good.empty.next clear made
  exact ⟨sound, tree, destroyed⟩

theorem Database.new_rooted : new.server.store.Rooted := by
  refine ⟨⟨_, rfl⟩, ?_⟩
  rintro k ⟨obj, there, mem⟩
  obtain rfl : k = 0 := Nat.lt_one_iff.mp (lt_of_dir there)
  rw [← some.inj there] at mem
  cases mem

theorem Database.new_sum (m : ℕ) (le : 1 ≤ m) :
    (computeIt m new.server.store 0 0).1 ≡ new.server.dbChecksum
      [MOD 2 ^ 32] := by
  obtain ⟨n, rfl⟩ := Nat.exists_eq_add_of_le' le
  rfl

/-- A property is added to the root. -/
theorem checksum_exact_property : ∃ d, Run next Fair new d ∧
    d.server.dbChecksum = 2 ∧
    ∃ n, ∀ m, n ≤ m → (computeIt m d.server.store 0 0).1 ≡ 2 [MOD 2 ^ 32] := by
  obtain ⟨d, added, sum⟩ : ∃ d, new.next (.request (.ok (some accessUserSuper)) Writes.all
      (.createprop ⟨0, 1⟩ ⟨[97], []⟩ 0)) = some d ∧ d.server.dbChecksum = 2 := ⟨_, rfl, rfl⟩
  have fair : new.Fair (.request (.ok (some accessUserSuper)) Writes.all
      (.createprop ⟨0, 1⟩ ⟨[97], []⟩ 0)) := by
    refine ⟨trivial, ?_⟩
    rintro auth w r same obj -
    injection same with _ _ same
    subst same
    exact .refl
  have run := Run.step .start fair added
  have exact := (checksum_exact new_good.sound new_good.tree new_rooted
    ⟨1, new_sum⟩ run).1
  rw [sum] at exact
  exact ⟨d, run, sum, exact⟩

/-- A directory with the instance `NI_INDEX_NULL`, and one that is made over it. -/
def overSteps : List Step :=
  [.request (.ok (some accessUserSuper)) Writes.all (.create ⟨0, 1⟩ [] 0 (some ⟨1, 2 ^ 32 - 1⟩)),
    .request (.ok (some accessUserSuper)) Writes.all (.create ⟨0, 2⟩ [] 0 none)]

set_option maxRecDepth 4000 in
/-- Where a directory is made over another one, the weight of the other one stays in the running
sum. -/
theorem checksum_differs :
    (∀ m, 1 ≤ m → (computeIt m new.server.store 0 0).1 ≡
      new.server.dbChecksum [MOD 2 ^ 32]) ∧
    ∃ d, Run next (fun _ _ => True) new d ∧ d.server.dbChecksum = 1 ∧
      ∀ m, (computeIt (m + 2) d.server.store 0 0).1 = 3 := by
  obtain ⟨d, taken, running, computed⟩ : ∃ d,
      runActions next new overSteps = some d ∧ d.server.dbChecksum = 1 ∧
        ∀ m, (computeIt (m + 2) d.server.store 0 0).1 = 3 := ⟨_, rfl, rfl, fun _ => rfl⟩
  exact ⟨new_sum, d, run_of_runActions taken, running, computed⟩

end Runs

end Darwin.Netinfo
