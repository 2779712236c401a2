import Mathlib.Data.List.Basic

/-!
Runs of a step function that picks one action after another. Every step leaves a
label, so a run is known by the labels of its steps in order and by the state it
reaches. A run may be restricted to the steps that meet a condition on the state
before the step and on the action.
-/
namespace Nulleye.Runs

variable {State Action Label : Type*}

/-- The runs from `s` whose steps all meet `ok`: the labels of the steps, oldest
    first, and the state reached. -/
inductive Run (step : State → Action → Option (State × Label)) (ok : State → Action → Prop) (s : State) :
    List Label → State → Prop
  | start : Run step ok s [] s
  | next {trace : List Label} {t u : State} {a : Action} {label : Label} : Run step ok s trace t → ok t a →
      step t a = some (u,label) → Run step ok s (trace ++ [label]) u

/-- The condition that every step meets. -/
def free (_ : State) (_ : Action) : Prop := True

instance (s : State) (a : Action) : Decidable (free s a) := .isTrue trivial

/-- The state and the labels that a list of actions leads to, if all its steps exist and meet `ok`. -/
def exec (step : State → Action → Option (State × Label)) (ok : State → Action → Prop)
    [∀ s a, Decidable (ok s a)] : State → List Action → Option (State × List Label)
  | s, [] => some (s,[])
  | s, a :: rest =>
    if ok s a then
      match step s a with
      | none => none
      | some (t,label) => (exec step ok t rest).map (fun r => (r.1,label :: r.2))
    else none

variable {step : State → Action → Option (State × Label)} {ok ok' : State → Action → Prop} {s : State}

/-- What holds before a run and is kept by its steps holds after it. -/
theorem Run.invariant {I : List Label → State → Prop} (init : I [] s)
    (keep : ∀ trace t a u label, Run step ok s trace t → I trace t → ok t a → step t a = some (u,label) →
      I (trace ++ [label]) u)
    {trace : List Label} {t : State} (run : Run step ok s trace t) : I trace t := by
  induction run with
  | start => exact init
  | next before allowed moved ih => exact keep _ _ _ _ _ before ih allowed moved

/-- A run stays a run under a weaker condition. -/
theorem Run.weaken (weaker : ∀ t a, ok t a → ok' t a) {trace : List Label} {t : State}
    (run : Run step ok s trace t) : Run step ok' s trace t := by
  induction run with
  | start => exact .start
  | next _ allowed moved ih => exact .next ih (weaker _ _ allowed) moved

/-- A run meets a stronger condition when a bound on its labels, which every
    shorter run also meets, forces that condition step by step. -/
theorem Run.strengthen (bound : List Label → Prop) (shorter : ∀ trace label, bound (trace ++ [label]) → bound trace)
    (forced : ∀ trace t a u label, Run step ok' s trace t → ok t a → step t a = some (u,label) →
      bound (trace ++ [label]) → ok' t a)
    {trace : List Label} {t : State} (run : Run step ok s trace t) : bound trace → Run step ok' s trace t := by
  induction run with
  | start => exact fun _ => .start
  | next _ allowed moved ih =>
    intro bounded
    have before := ih (shorter _ _ bounded)
    exact .next before (forced _ _ _ _ _ before allowed moved bounded) moved

/-- Runs can be put one after the other. -/
theorem Run.trans {front back : List Label} {t u : State} (first : Run step ok s front t)
    (second : Run step ok t back u) : Run step ok s (front ++ back) u := by
  induction second with
  | start => simpa using first
  | next _ allowed moved ih =>
    rw [← List.append_assoc]
    exact .next ih allowed moved

/-- Every label of a run is left by a step from a state that the labels before it lead to. -/
theorem Run.at_label {front back : List Label} {label : Label} {u : State}
    (run : Run step ok s (front ++ label :: back) u) :
    ∃ t a t', Run step ok s front t ∧ ok t a ∧ step t a = some (t',label) := by
  generalize whole : front ++ label :: back = trace at run
  induction run generalizing back with
  | start => simp at whole
  | @next trace t u a last before allowed moved ih =>
    rcases List.eq_nil_or_concat back with rfl | ⟨back',last',rfl⟩
    · obtain ⟨rfl,same⟩ := List.append_inj' whole rfl
      cases same
      exact ⟨t,a,u,before,allowed,moved⟩
    · rw [List.concat_eq_append,← List.cons_append,← List.append_assoc] at whole
      exact ih (List.append_inj' whole rfl).1

/-- Executing a list of actions is a run. -/
theorem run_of_exec [∀ s a, Decidable (ok s a)] {actions : List Action} {trace : List Label} {t : State}
    (executed : exec step ok s actions = some (t,trace)) : Run step ok s trace t := by
  induction actions generalizing s trace with
  | nil => cases executed; exact .start
  | cons a rest ih =>
    rw [exec] at executed
    split at executed
    · rename_i allowed
      cases moved : step s a with
      | none => simp [moved] at executed
      | some r =>
        obtain ⟨next,label⟩ := r
        simp only [moved,Option.map_eq_some_iff] at executed
        obtain ⟨⟨t',labels⟩,later,same⟩ := executed
        cases same
        have first : Run step ok s [label] next := .next .start allowed moved
        exact first.trans (ih later)
    · cases executed

/-- A check that succeeds after executing some actions holds at the end of a run. -/
theorem exists_run_of_check (step : State → Action → Option (State × Label)) (ok : State → Action → Prop)
    [∀ s a, Decidable (ok s a)] (s : State) (check : State → List Label → Bool) (actions : List Action)
    (checked : (exec step ok s actions).map (fun r => check r.1 r.2) = some true) :
    ∃ trace t, Run step ok s trace t ∧ check t trace = true := by
  obtain ⟨⟨t,trace⟩,executed,holds⟩ := Option.map_eq_some_iff.mp checked
  exact ⟨trace,t,run_of_exec executed,holds⟩

end Nulleye.Runs
