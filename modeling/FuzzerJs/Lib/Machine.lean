import Mathlib

/-!
# Machines that take one action after another

A machine is given by what one action does to its state; a run takes the actions of a
list in turn.  `run_invariant` is the induction over a run: what every action preserves
holds at the end, whatever the actions and their order.
-/

namespace Machine

variable {State Action : Type*}

/-- The state after the actions of a list, taken in turn. -/
def run (step : Action → State → State) : List Action → State → State
  | [], s => s
  | a :: as, s => run step as (step a s)

@[simp]
theorem run_nil (step : Action → State → State) (s : State) : run step [] s = s := rfl

@[simp]
theorem run_cons (step : Action → State → State) (a : Action) (as : List Action) (s : State) :
    run step (a :: as) s = run step as (step a s) := rfl

/-- What every action preserves holds at the end of every run. -/
theorem run_invariant {step : Action → State → State} {Inv : State → Prop}
    (hstep : ∀ a s, Inv s → Inv (step a s)) :
    ∀ (as : List Action) (s : State), Inv s → Inv (run step as s) := by
  intro as
  induction as with
  | nil => intro s hs; exact hs
  | cons a as ih => intro s hs; exact ih _ (hstep a s hs)

end Machine
