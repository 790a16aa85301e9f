import Mathlib.Logic.Relation

/-!
# Runs of a deterministic machine

A machine is a function that takes a state and an action to the next state, or to nothing where the
action is not possible.  A run is a sequence of actions, each of which meets a condition on the
state it is taken in.
-/

namespace Darwin.Lib

variable {State Action : Type*} {next : State → Action → Option State}
  {cond cond' : State → Action → Prop} {inv : State → Prop} {s t u : State}

/-- The states reached from `s` by actions that meet the condition. -/
inductive Run (next : State → Action → Option State) (cond : State → Action → Prop) (s : State) :
    State → Prop
  | start : Run next cond s s
  | step {t u : State} {a : Action} :
    Run next cond s t → cond t a → next t a = some u → Run next cond s u

/-- What one step preserves holds throughout a run. -/
theorem Run.invariant (run : Run next cond s t) (initially : inv s)
    (step : ∀ {t u a}, inv t → cond t a → next t a = some u → inv u) : inv t := by
  induction run with
  | start => exact initially
  | step _ met taken ih => exact step ih met taken

theorem Run.trans (first : Run next cond s t) (second : Run next cond t u) :
    Run next cond s u := by
  induction second with
  | start => exact first
  | step _ met taken ih => exact .step ih met taken

/-- Take a list of actions, one after the other. -/
def runActions (next : State → Action → Option State) (s : State) : List Action → Option State
  | [] => some s
  | a :: actions =>
    match next s a with
    | none => none
    | some t => runActions next t actions

variable {actions : List Action}

/-- A list of actions that can be taken is a run, if each of them meets the condition anywhere. -/
theorem run_of_forall (taken : runActions next s actions = some t)
    (met : ∀ a ∈ actions, ∀ u, cond u a) : Run next cond s t := by
  induction actions generalizing s with
  | nil =>
    obtain rfl : s = t := Option.some.inj taken
    exact .start
  | cons a actions ih =>
    rw [runActions] at taken
    split at taken
    · cases taken
    · rename_i u step
      have rest := ih taken fun b later => met b (List.mem_cons_of_mem _ later)
      exact (Run.step .start (met a List.mem_cons_self s) step).trans rest

/-- A list of actions that can be taken is a run. -/
theorem run_of_runActions (taken : runActions next s actions = some t) :
    Run next (fun _ _ => True) s t :=
  run_of_forall taken fun _ _ _ => trivial

/-- The machine that takes an action only where the condition is met. -/
def guarded (next : State → Action → Option State) (cond : State → Action → Prop)
    [∀ s a, Decidable (cond s a)] (s : State) (a : Action) : Option State :=
  if cond s a then next s a else none

/-- A list of actions that can be taken where the condition is checked each time. -/
theorem run_of_guarded [∀ s a, Decidable (cond s a)]
    (taken : runActions (guarded next cond) s actions = some t) : Run next cond s t := by
  have run : Run (guarded next cond) (fun _ _ => True) s t := run_of_runActions taken
  clear taken
  induction run with
  | start => exact .start
  | step _ _ stepped ih =>
    rw [guarded] at stepped
    split at stepped
    · rename_i met
      exact .step ih met stepped
    · cases stepped

section EveryStep

variable {step : State → Action → State} {legal good ok : State → Action → Prop}
  {actions : List Action}

/-- Where every action is possible: each action of a list meets a condition on the state that it is
taken in. -/
def EveryStep (step : State → Action → State) (cond : State → Action → Prop) :
    State → List Action → Prop
  | _, [] => True
  | s, a :: actions => cond s a ∧ EveryStep step cond (step s a) actions

/-- Two conditions that agree under an invariant agree along whole runs. -/
theorem everyStep_congr (initially : inv s) (preserved : ∀ s a, inv s → legal s a → inv (step s a))
    (agree : ∀ s a, inv s → legal s a → (good s a ↔ ok s a))
    (legally : EveryStep step legal s actions) :
    EveryStep step good s actions ↔ EveryStep step ok s actions := by
  induction actions generalizing s with
  | nil => exact Iff.rfl
  | cons a actions ih =>
    obtain ⟨first, rest⟩ := legally
    rw [EveryStep, EveryStep, agree s a initially first, ih (preserved s a initially first) rest]

end EveryStep

end Darwin.Lib
