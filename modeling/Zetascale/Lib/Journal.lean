import Mathlib

/-!
# Journals

Changes that leave records behind, and undoing them from the last to the first.
The states that matter are abstract; what the records are undone on are states
that represent them, which need not be the ones the changes were made on.
-/

namespace Zetascale

universe u v w

variable {A : Type u} {R : Type v} {S : Type w}

/-- The records lead from one abstract state to another. -/
inductive Journal (change : A → R → A → Prop) : A → List R → A → Prop
  | nil (a : A) : Journal change a [] a
  | cons {a b c : A} {r : R} {rest : List R} :
      change a r b → Journal change b rest c → Journal change a (r :: rest) c

namespace Journal

variable {change : A → R → A → Prop} {a b c : A} {r : R} {records : List R}

theorem snoc (journal : Journal change a records b) (last : change b r c) :
    Journal change a (records ++ [r]) c := by
  induction journal with
  | nil a => exact .cons last (.nil c)
  | cons first _ ih => exact .cons first (ih last)

/-- Undo the records from the last to the first. What undoing one does may depend on how many came
before it. -/
def undoAll (undo : ℕ → S → R → Option S) : List R → S → Option S
  | [], state => some state
  | r :: rest, state => (undoAll undo rest state).bind fun later => undo rest.length later r

variable {undo : ℕ → S → R → Option S} (Represents : S → A → Prop) {state final : S}

/-- Where undoing a record takes back the change, as far as it returns, undoing them all takes back
all changes. -/
theorem represents_of_undoAll
    (inverse : ∀ {i a b r state final}, change a r b → Represents state b →
      undo i state r = some final → Represents final a)
    (journal : Journal change a records b) (represents : Represents state b)
    (undone : undoAll undo records state = some final) : Represents final a := by
  induction journal generalizing final with
  | nil a =>
    cases undone
    exact represents
  | cons first _ ih =>
    obtain ⟨later, before, last⟩ := Option.bind_eq_some_iff.mp undone
    exact inverse first (ih represents before) last

/-- Where each record can be undone, all can. -/
theorem undoAll_total (inverse : ∀ {i a b r state}, change a r b → Represents state b →
      ∃ final, undo i state r = some final ∧ Represents final a)
    (journal : Journal change a records b) (represents : Represents state b) :
    ∃ final, undoAll undo records state = some final ∧ Represents final a := by
  induction journal with
  | nil a => exact ⟨state, rfl, represents⟩
  | cons first _ ih =>
    obtain ⟨later, before, related⟩ := ih represents
    obtain ⟨final, last, related'⟩ := inverse first related
    exact ⟨final, Option.bind_eq_some_iff.mpr ⟨later, before, last⟩, related'⟩

end Journal

end Zetascale
