import Mathlib.Data.List.Basic
import Mathlib.Logic.Relation

/-!
# Chains of pointers

A partial function `next` links objects into chains.  The chains are acyclic if no object can be
reached from itself.  The main lemma says when a new pointer keeps them acyclic: the object that
gets it has none yet, and is not the end of the chain that it is attached to.
-/

namespace Darwin.Lib

variable {P : Type*} {next next' : P → Option P} {a b c e : P} {l : List P}

/-- The relation that the pointers define. -/
def PointsTo (next : P → Option P) (p q : P) : Prop := next p = some q

/-- No object leads back to itself. -/
def AcyclicPointers (next : P → Option P) : Prop :=
  ∀ p, ¬ Relation.TransGen (PointsTo next) p p

/-- Following the pointers from `a` through the objects of `l` leads to `b`. -/
def Chain (next : P → Option P) : P → List P → P → Prop
  | a, [], b => a = b
  | a, p :: l, b => a = p ∧ ∃ c, next p = some c ∧ Chain next c l b

theorem Chain.nil (a : P) : Chain next a [] a := rfl

theorem Chain.cons (link : next a = some b) (chain : Chain next b l c) : Chain next a (a :: l) c :=
  ⟨rfl, b, link, chain⟩

variable (chain : Chain next a l b)

include chain

/-- A chain depends only on the pointers of its objects. -/
theorem Chain.congr (same : ∀ p ∈ l, next' p = next p) :
    Chain next' a l b := by
  induction l generalizing a with
  | nil => exact chain
  | cons p l ih =>
    obtain ⟨rfl, c, link, rest⟩ := chain
    refine ⟨rfl, c, ?_, ih rest fun q mem => same q (List.mem_cons_of_mem _ mem)⟩
    rw [same a List.mem_cons_self, link]

/-- One link more at the end. -/
theorem Chain.snoc (link : next b = some c) :
    Chain next a (l ++ [b]) c := by
  induction l generalizing a with
  | nil =>
    obtain rfl : a = b := chain
    exact .cons link (.nil c)
  | cons p l ih =>
    obtain ⟨rfl, d, link', rest⟩ := chain
    exact .cons link' (ih rest)

theorem Chain.next_of_mem {p : P} (mem : p ∈ l) :
    next p ≠ none := by
  induction l generalizing a with
  | nil => cases mem
  | cons q l ih =>
    obtain ⟨rfl, d, link, rest⟩ := chain
    rcases List.mem_cons.mp mem with rfl | mem
    · rw [link]
      exact Option.some_ne_none d
    · exact ih rest mem

theorem Chain.reaches : Relation.ReflTransGen (PointsTo next) a b := by
  induction l generalizing a with
  | nil =>
    obtain rfl : a = b := chain
    exact .refl
  | cons p l ih =>
    obtain ⟨rfl, d, link, rest⟩ := chain
    exact .head link (ih rest)

theorem Chain.reaches_of_mem {p : P} (mem : p ∈ l ++ [b]) :
    Relation.ReflTransGen (PointsTo next) a p := by
  induction l generalizing a with
  | nil =>
    obtain rfl : a = b := chain
    obtain rfl : p = a := List.mem_singleton.mp mem
    exact .refl
  | cons q l ih =>
    obtain ⟨rfl, d, link, rest⟩ := chain
    rcases List.mem_cons.mp mem with rfl | mem
    · exact .refl
    · exact .head link (ih rest mem)

omit chain

/-- In an acyclic structure the rest of a chain does not come back to its first object. -/
theorem Chain.start_notMem (acyclic : AcyclicPointers next) (link : next a = some c)
    (chain : Chain next c l b) : a ∉ l ++ [b] := by
  intro mem
  exact acyclic a (Relation.TransGen.head' link (chain.reaches_of_mem mem))

/-- In an acyclic structure a chain does not come back to one of its objects. -/
theorem Chain.end_notMem (acyclic : AcyclicPointers next) (chain : Chain next a l b) : b ∉ l := by
  induction l generalizing a with
  | nil => exact List.not_mem_nil
  | cons p l ih =>
    obtain ⟨rfl, d, link, rest⟩ := chain
    intro mem
    rcases List.mem_cons.mp mem with rfl | mem
    · exact acyclic b (Relation.TransGen.head' link rest.reaches)
    · exact ih rest mem

/-- What can be reached from the start of a chain that has an end is on the chain. -/
theorem Chain.mem_of_reaches (chain : Chain next a l e) (ends : next e = none)
    (reaches : Relation.ReflTransGen (PointsTo next) a b) : b ∈ l ∨ b = e := by
  induction l generalizing a with
  | nil =>
    obtain rfl : a = e := chain
    rcases reaches.cases_head with rfl | ⟨c, link, -⟩
    · exact .inr rfl
    · rw [PointsTo, ends] at link
      exact absurd link (Option.some_ne_none c).symm
  | cons p l ih =>
    obtain ⟨rfl, d, link, rest⟩ := chain
    rcases reaches.cases_head with rfl | ⟨c, link', further⟩
    · exact .inl List.mem_cons_self
    have same : c = d := Option.some.inj (link'.symm.trans link)
    subst same
    rcases ih rest further with mem | rfl
    · exact .inl (List.mem_cons_of_mem _ mem)
    · exact .inr rfl

theorem AcyclicPointers.mono (acyclic : AcyclicPointers next)
    (fewer : ∀ p q, next' p = some q → next p = some q) : AcyclicPointers next' := by
  intro p cycle
  exact acyclic p (Relation.TransGen.mono (fun x y link => fewer x y link) p p cycle)

/-- A path after a pointer was added is an old path, or it uses the pointer. -/
theorem transGen_update [DecidableEq P] {x y : P}
    (path : Relation.TransGen (PointsTo (Function.update next a (some b))) x y) :
    Relation.TransGen (PointsTo next) x y ∨
      (Relation.ReflTransGen (PointsTo next) x a ∧ Relation.ReflTransGen (PointsTo next) b y) := by
  have cases_link {p q : P} (link : PointsTo (Function.update next a (some b)) p q) :
      PointsTo next p q ∨ (p = a ∧ q = b) := by
    by_cases here : p = a
    · subst here
      rw [PointsTo, Function.update_self] at link
      exact .inr ⟨rfl, (Option.some.inj link).symm⟩
    · rw [PointsTo, Function.update_of_ne here] at link
      exact .inl link
  induction path with
  | single link =>
    rcases cases_link link with old | ⟨rfl, rfl⟩
    · exact .inl (.single old)
    · exact .inr ⟨.refl, .refl⟩
  | tail _ link ih =>
    rcases cases_link link with old | ⟨rfl, rfl⟩
    · rcases ih with path | ⟨toNew, fromNew⟩
      · exact .inl (.tail path old)
      · exact .inr ⟨toNew, fromNew.tail old⟩
    · rcases ih with path | ⟨toNew, -⟩
      · exact .inr ⟨path.to_reflTransGen, .refl⟩
      · exact .inr ⟨toNew, .refl⟩

/-- A new pointer from an object without one to the start of a chain that ends elsewhere. -/
theorem AcyclicPointers.update [DecidableEq P] (acyclic : AcyclicPointers next)
    (free : next a = none) (chain : Chain next b l e) (ends : next e = none) (other : e ≠ a) :
    AcyclicPointers (Function.update next a (some b)) := by
  have unreachable : ¬ Relation.ReflTransGen (PointsTo next) b a := by
    intro reaches
    rcases chain.mem_of_reaches ends reaches with mem | same
    · exact chain.next_of_mem mem free
    · exact other same.symm
  intro p cycle
  rcases transGen_update cycle with old | ⟨toNew, fromNew⟩
  · exact acyclic p old
  · exact unreachable (fromNew.trans toNew)

end Darwin.Lib
