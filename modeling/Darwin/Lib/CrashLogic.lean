import Mathlib.Logic.Relation

/-!
# Programs that may be interrupted

A program acts on a state in single steps, and may be cut off between any two of them.  What is left
then is the state at that point; a recovery program runs on it, and may be cut off in turn.

## Main definitions

* `Prog` - a program, as a tree of its steps
* `Prog.Cut` - the states that a program may be cut off in
* `Prog.Meets` - a condition holds whenever the program is cut off, and another one when it ends

## Main results

* `Prog.Meets.bind` - the rule for one program after another
* `Prog.Meets.recovers` - what a recovery guarantees after any number of interruptions
-/

namespace Darwin.Lib

universe u v

/-- A program on states of type `S`: it ends with a result, or changes the state and goes on as what
it saw there says. -/
inductive Prog (S : Type u) (A : Type v) where
  | ret (a : A)
  | act (change : S → S) (next : S → Prog S A)

namespace Prog

variable {S : Type u} {A B : Type v} {p : Prog S A} {s s' : S} {I J : S → Prop} {Q R : A → S → Prop}

/-- One program after another. -/
def bind : Prog S A → (A → Prog S B) → Prog S B
  | ret a, f => f a
  | act change next, f => act change fun s => (next s).bind f

instance : Monad (Prog S) where
  pure := ret
  bind := bind

/-- What a program ends with. -/
def run : Prog S A → S → A × S
  | ret a, s => (a, s)
  | act change next, s => (next s).run (change s)

/-- A program may be cut off in a state. -/
inductive Cut : Prog S A → S → S → Prop
  | here (p : Prog S A) (s : S) : Cut p s s
  | later {change : S → S} {next : S → Prog S A} {s s' : S}
      (cut : Cut (next s) (change s) s') : Cut (act change next) s s'

/-- `I` holds wherever the program is cut off, and `Q` where it ends. -/
def Meets (I : S → Prop) (Q : A → S → Prop) : Prog S A → S → Prop
  | ret a, s => I s ∧ Q a s
  | act change next, s => I s ∧ Meets I Q (next s) (change s)

theorem meets_ret {a : A} : Meets I Q (ret a) s ↔ I s ∧ Q a s := Iff.rfl

variable (meets : Meets I Q p s)

include meets

theorem Meets.start : I s := by
  cases p with
  | ret a => exact meets.1
  | act change next => exact meets.1

theorem Meets.cut (cut : Cut p s s') : I s' := by
  induction cut with
  | here p s => exact meets.start
  | later _ ih => exact ih meets.2

theorem Meets.run : Q (p.run s).1 (p.run s).2 := by
  induction p generalizing s with
  | ret a => exact meets.2
  | act change next ih => exact ih s meets.2

theorem Meets.mono (crash : ∀ s, I s → J s) (ends : ∀ a s, Q a s → R a s) : Meets J R p s := by
  induction p generalizing s with
  | ret a => exact ⟨crash s meets.1, ends a s meets.2⟩
  | act change next ih => exact ⟨crash s meets.1, ih s meets.2⟩

/-- A program meets its conditions if its first part ends where the second part meets them. -/
theorem Meets.bind {T : B → S → Prop} {f : A → Prog S B} (next : ∀ a s, Q a s → Meets I T (f a) s) :
    Meets I T (p >>= f) s := by
  induction p generalizing s with
  | ret a => exact next a s meets.2
  | act change _ ih => exact ⟨meets.1, ih s meets.2⟩

omit meets

/-- What is left when a program, and then any number of recoveries, are cut off. -/
def Interrupted (p : Prog S A) (recovery : Prog S B) (s s' : S) : Prop :=
  ∃ left, Cut p s left ∧ Relation.ReflTransGen (Cut recovery) left s'

/-- A recovery that keeps what may be left, and turns it into what is wanted, does so in the end. -/
theorem Meets.recovers {T : B → S → Prop} {recovery : Prog S B} (meets : Meets I Q p s)
    (recovers : ∀ s, I s → Meets I T recovery s) (interrupted : Interrupted p recovery s s') :
    T (recovery.run s').1 (recovery.run s').2 := by
  obtain ⟨left, cut, again⟩ := interrupted
  have mem : I s' := by
    induction again with
    | refl => exact meets.cut cut
    | tail _ cut ih => exact (recovers _ ih).cut cut
  exact (recovers s' mem).run

end Prog

end Darwin.Lib
