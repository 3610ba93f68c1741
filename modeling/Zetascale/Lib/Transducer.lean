import Mathlib

/-!
# Transducers

A transducer reads one input at a time and emits any number of outputs. `feed`
gives it a list of inputs and collects what it emits. Two stages in a row are
fed one after the other: the second one gets what the first one emits.
-/

namespace Zetascale

open List

universe u v w

variable {State : Type u} {Input : Type v} {Output : Type w}

/-- Read the inputs in turn. -/
def feed (step : State → Input → State × List Output) :
    State → List Input → State × List Output
  | state, [] => (state, [])
  | state, input :: rest =>
    let next := step state input
    let after := feed step next.1 rest
    (after.1, next.2 ++ after.2)

variable {step : State → Input → State × List Output}

@[simp] theorem feed_nil (state : State) : feed step state [] = (state, []) := rfl

theorem feed_cons (state : State) (input : Input) (rest : List Input) :
    feed step state (input :: rest) = ((feed step (step state input).1 rest).1,
        (step state input).2 ++ (feed step (step state input).1 rest).2) := rfl

variable {inputs : List Input} {state : State}

/-- What every step preserves holds after all of them. -/
theorem feed_induction {Inv : State → Prop}
    (preserved : ∀ {state}, Inv state → ∀ input ∈ inputs, Inv (step state input).1)
    (holds : Inv state) : Inv (feed step state inputs).1 := by
  induction inputs generalizing state with
  | nil => exact holds
  | cons input rest ih =>
    exact ih (fun held next mem => preserved held next (mem_cons_of_mem _ mem))
      (preserved holds input mem_cons_self)

/-- A transducer that stays in its state and hands its inputs on. -/
theorem feed_pass {step : State → Input → State × List Input}
    (pass : ∀ input ∈ inputs, step state input = (state, [input])) :
    feed step state inputs = (state, inputs) := by
  induction inputs with
  | nil => rfl
  | cons input rest ih =>
    rw [feed_cons, pass input mem_cons_self, ih fun next mem => pass next (mem_cons_of_mem _ mem)]
    rfl

/-- A transducer that stays in its state and swallows its inputs. -/
theorem feed_drop (drop : ∀ input ∈ inputs, step state input = (state, [])) :
    feed step state inputs = (state, []) := by
  induction inputs with
  | nil => rfl
  | cons input rest ih =>
    rw [feed_cons, drop input mem_cons_self, ih fun next mem => drop next (mem_cons_of_mem _ mem)]
    rfl

end Zetascale
