import Mathlib

/-!
# Runs of a deterministic machine

A machine is a step function that may refuse an action. Everything an
environment decides (which thread moves, which call to the device fails) is
part of the action, so that a history is a list of actions and its outcome is
a function of it.

`Admitted ok` says that every action of a history satisfies a condition on the
state it is taken in. `run_induction` is the rule all invariants of this
development go through: what every admitted action preserves holds in every
state an admitted history reaches. `run_simulates` is the rule for machines that
must not get stuck: where every admitted action can be taken and does what an
abstract machine does, an admitted history runs to its end and follows the
abstract one.
-/

namespace Zetascale.Machine

open List Option

universe u v

variable {State : Type u} {Action : Type v}

/-- Take the actions of a history one after the other. -/
def run (step : State → Action → Option State) : State → List Action → Option State
  | state, [] => some state
  | state, action :: rest => (step state action).bind fun next => run step next rest

/-- Every action of the history meets `ok` in the state in which it is taken. -/
def Admitted (step : State → Action → Option State) (ok : State → Action → Prop) :
    State → List Action → Prop
  | _, [] => True
  | state, action :: rest =>
    ok state action ∧ ∀ next, step state action = some next → Admitted step ok next rest

variable {step : State → Action → Option State} {ok : State → Action → Prop}
  {Inv : State → Prop} {state final : State} {actions : List Action}

instance decidableAdmitted [∀ state action, Decidable (ok state action)] (state : State)
    (actions : List Action) : Decidable (Admitted step ok state actions) :=
  match actions with
  | [] => inferInstanceAs (Decidable True)
  | action :: rest =>
    match taken : step state action with
    | none => decidable_of_iff (ok state action) (by simp [Admitted, taken])
    | some next =>
      have := decidableAdmitted next rest
      decidable_of_iff (ok state action ∧ Admitted step ok next rest) (by simp [Admitted, taken])

@[simp] theorem run_nil (state : State) : run step state [] = some state := rfl

theorem run_cons (state : State) (action : Action) (rest : List Action) :
    run step state (action :: rest) = (step state action).bind fun next => run step next rest := rfl

/-- A history that succeeds splits at its first action. -/
theorem run_cons_eq_some {action : Action} {rest : List Action} :
    run step state (action :: rest) = some final ↔
      ∃ next, step state action = some next ∧ run step next rest = some final := by
  rw [run_cons, bind_eq_some_iff]

/-- What every admitted action preserves holds wherever an admitted history leads. -/
theorem run_induction (preserved : ∀ {state action next}, Inv state → ok state action →
      step state action = some next → Inv next)
    (holds : Inv state) (admitted : Admitted step ok state actions)
    (reached : run step state actions = some final) : Inv final := by
  induction actions generalizing state with
  | nil =>
    rw [run_nil, some.injEq] at reached
    exact reached ▸ holds
  | cons action rest ih =>
    obtain ⟨next, taken, onward⟩ := run_cons_eq_some.mp reached
    exact ih (preserved holds admitted.1 taken) (admitted.2 next taken) onward

/-- What every action preserves holds in every state that a history reaches. -/
theorem run_preserves
    (preserved : ∀ {state action next}, Inv state → step state action = some next → Inv next)
    (holds : Inv state) (reached : run step state actions = some final) : Inv final := by
  induction actions generalizing state with
  | nil =>
    rw [run_nil, some.injEq] at reached
    exact reached ▸ holds
  | cons action rest ih =>
    obtain ⟨next, taken, onward⟩ := run_cons_eq_some.mp reached
    exact ih (preserved holds taken) onward

theorem run_append (state : State) (before after : List Action) : run step state (before ++ after) =
      (run step state before).bind fun middle => run step middle after := by
  induction before generalizing state with
  | nil => rfl
  | cons action rest ih =>
    simp [run_cons, bind_assoc, ih]

/-- A history is admitted when its first part is, and its second part is in the
state that the first one reaches. -/
theorem Admitted.append {before after : List Action}
    (admitted : Admitted step ok state (before ++ after)) : Admitted step ok state before ∧
      ∀ middle, run step state before = some middle → Admitted step ok middle after := by
  induction before generalizing state with
  | nil =>
    refine ⟨trivial, fun middle reached => ?_⟩
    rw [run_nil, some.injEq] at reached
    exact reached ▸ admitted
  | cons action rest ih =>
    refine ⟨⟨admitted.1, fun next taken => (ih (admitted.2 next taken)).1⟩, fun middle reached => ?_⟩
    obtain ⟨next, taken, onward⟩ := run_cons_eq_some.mp reached
    exact (ih (admitted.2 next taken)).2 middle onward

theorem Admitted.extend {before after : List Action} (first : Admitted step ok state before)
    (second : ∀ middle, run step state before = some middle → Admitted step ok middle after) :
    Admitted step ok state (before ++ after) := by
  induction before generalizing state with
  | nil => exact second state rfl
  | cons action rest ih =>
    refine ⟨first.1, fun next taken => ih (first.2 next taken) fun middle reached => ?_⟩
    exact second middle (run_cons_eq_some.mpr ⟨next, taken, reached⟩)

/-- Where a legal action can always be taken, keeps the invariant if it meets `ok`, and meets `ok` if
it leads to a good state, a legal history passes through good states only just in case all its actions
meet `ok`. -/
theorem admitted_iff_good {Good : State → Prop} {legal : State → Action → Prop}
    (good : ∀ {state}, Inv state → Good state)
    (taken : ∀ {state action}, Inv state → legal state action → ∃ next,
      step state action = some next ∧ (ok state action → Inv next) ∧ (Good next → ok state action))
    (holds : Inv state) (allowed : Admitted step legal state actions) :
    (∀ before, before <+: actions → ∃ final, run step state before = some final ∧ Good final) ↔
      Admitted step ok state actions := by
  induction actions generalizing state with
  | nil =>
    refine iff_of_true (fun before front => ?_) trivial
    rw [prefix_nil.mp front]
    exact ⟨state, rfl, good holds⟩
  | cons action rest ih =>
    obtain ⟨next, stepped, keeps, meets⟩ := taken holds allowed.1
    constructor
    · intro reached
      obtain ⟨final, arrived, isGood⟩ := reached [action] ⟨rest, rfl⟩
      rw [run_cons, stepped, bind_some, run_nil, some.injEq] at arrived
      have met := meets (arrived ▸ isGood)
      refine ⟨met, fun next' stepped' => ?_⟩
      cases stepped.symm.trans stepped'
      refine (ih (keeps met) (allowed.2 next stepped)).mp fun before front => ?_
      obtain ⟨final, arrived, isGood⟩ := reached (action :: before) (cons_prefix_cons.mpr ⟨rfl, front⟩)
      rw [run_cons, stepped, bind_some] at arrived
      exact ⟨final, arrived, isGood⟩
    · rintro ⟨met, onward⟩ before front
      cases before with
      | nil => exact ⟨state, rfl, good holds⟩
      | cons first more =>
        obtain ⟨rfl, within⟩ := cons_prefix_cons.mp front
        rw [run_cons, stepped, bind_some]
        exact (ih (keeps met) (allowed.2 next stepped)).mpr (onward next stepped) more within

/-- An admitted history runs through and follows the abstract machine, if every
admitted action does. -/
theorem run_simulates {Abstract : Type*} {spec : Abstract → Action → Abstract}
    {Related : State → Abstract → Prop}
    (simulated : ∀ {state abstract action}, Related state abstract → ok state action →
      ∃ next, step state action = some next ∧ Related next (spec abstract action))
    {abstract : Abstract} (related : Related state abstract) (admitted : Admitted step ok state actions) :
    ∃ final, run step state actions = some final ∧ Related final (actions.foldl spec abstract) := by
  induction actions generalizing state abstract with
  | nil => exact ⟨state, rfl, related⟩
  | cons action rest ih =>
    obtain ⟨next, taken, related'⟩ := simulated related admitted.1
    obtain ⟨final, reached, relatedFinal⟩ := ih related' (admitted.2 next taken)
    exact ⟨final, run_cons_eq_some.mpr ⟨next, taken, reached⟩, relatedFinal⟩

/-- An admitted history runs through and keeps the invariant, if every admitted action does. -/
theorem run_total (taken : ∀ {state action}, Inv state → ok state action →
      ∃ next, step state action = some next ∧ Inv next)
    (holds : Inv state) (admitted : Admitted step ok state actions) :
    ∃ final, run step state actions = some final ∧ Inv final :=
  @run_simulates _ _ _ _ _ _ Unit (fun _ _ => ()) (fun state _ => Inv state)
    (fun inv met => taken inv met) () holds admitted

/-- A condition on the actions alone is met whatever the states are. -/
theorem Admitted.of_forall {legal : Action → Prop} {state : State} {actions : List Action}
    (all : ∀ action ∈ actions, legal action) :
    Admitted step (fun _ action => legal action) state actions := by
  induction actions generalizing state with
  | nil => trivial
  | cons action rest ih =>
    rw [List.forall_mem_cons] at all
    exact ⟨all.1, fun _ _ => ih all.2⟩

theorem Admitted.and {ok' : State → Action → Prop} (first : Admitted step ok state actions)
    (second : Admitted step ok' state actions) :
    Admitted step (fun state action => ok state action ∧ ok' state action) state actions := by
  induction actions generalizing state with
  | nil => trivial
  | cons action rest ih =>
    exact ⟨⟨first.1, second.1⟩, fun next taken => ih (first.2 next taken) (second.2 next taken)⟩

/-- A history is admitted when its first action is and leads to a state in which the rest is. -/
theorem Admitted.cons {next : State} {action : Action} {rest : List Action}
    (met : ok state action) (taken : step state action = some next)
    (onward : Admitted step ok next rest) : Admitted step ok state (action :: rest) := by
  refine ⟨met, fun next' taken' => ?_⟩
  rw [taken, some.injEq] at taken'
  exact taken' ▸ onward

end Zetascale.Machine
