import Mathlib

/-!
# Cells with slots

Values kept in the slots of numbered cells, and a total over some of the cells,
in any commutative monoid: how many values there are, or which.
-/

namespace Zetascale.Slots

open Function Finset

universe u v w

variable {I : Type u} {α : Type v} {M : Type w} [DecidableEq I]

/-- Write one slot. -/
def set (slots : ℕ → I → α) (cell : ℕ) (i : I) (value : α) : ℕ → I → α :=
  update slots cell (update (slots cell) i value)

variable {slots : ℕ → I → α} {cell : ℕ} {i : I} {value : α}

@[simp] theorem set_self : set slots cell i value cell i = value := by
  rw [set, update_self, update_self]

theorem set_of_ne_cell {other : ℕ} (ne : other ≠ cell) :
    set slots cell i value other = slots other := update_of_ne ne _ _

theorem set_of_ne_slot {j : I} (ne : j ≠ i) : set slots cell i value cell j = slots cell j := by
  rw [set, update_self, update_of_ne ne]

/-- A slot that differs in some way from the written one has its old value. -/
theorem set_of_ne {other : ℕ} {j : I} (ne : ¬(other = cell ∧ j = i)) :
    set slots cell i value other j = slots other j := by
  by_cases same : other = cell
  · subst same
    exact set_of_ne_slot fun slot => ne ⟨rfl, slot⟩
  · rw [set_of_ne_cell same]

@[simp] theorem set_set {value' : α} :
    set (set slots cell i value) cell i value' = set slots cell i value' := by
  rw [set, set, update_self, update_idem, update_idem, set]

variable [Fintype I] [AddCommMonoid M] {weight : α → M} {cells : Finset ℕ}

/-- The weights of all slots of some cells. -/
def total (weight : α → M) (slots : ℕ → I → α) (cells : Finset ℕ) : M :=
  ∑ cell ∈ cells, ∑ i, weight (slots cell i)

theorem sum_update_add {ι : Type*} [DecidableEq ι] (s : Finset ι) (f : ι → M) {a : ι} (mem : a ∈ s)
    (m : M) : ∑ x ∈ s, update f a m x + f a = ∑ x ∈ s, f x + m := by
  rw [sum_update_of_mem mem, ← erase_eq, ← add_sum_erase s f mem,
    add_right_comm, add_assoc, add_comm m, add_comm (f a), add_assoc]

/-- A write to one of the cells changes the total by the two values. -/
theorem total_set (mem : cell ∈ cells) :
    total weight (set slots cell i value) cells + weight (slots cell i) =
      total weight slots cells + weight value := by
  have inner : ∑ j, weight (set slots cell i value cell j) + weight (slots cell i) =
      ∑ j, weight (slots cell j) + weight value := by
    have written : (fun j => weight (set slots cell i value cell j)) =
        update (fun j => weight (slots cell j)) i (weight value) := by
      funext j
      by_cases same : j = i
      · subst same
        rw [set_self, update_self]
      · rw [set_of_ne_slot same, update_of_ne same]
    rw [written]
    exact sum_update_add _ _ (mem_univ i) _
  have outer : ∀ other ∈ cells.erase cell, ∑ j, weight (set slots cell i value other j) =
      ∑ j, weight (slots other j) := by
    intro other inside
    rw [set_of_ne_cell (ne_of_mem_erase inside)]
  rw [total, total, ← add_sum_erase _ _ mem, ← add_sum_erase _ _ mem,
    sum_congr rfl outer, add_right_comm, inner, add_right_comm]

/-- A write elsewhere does not change it. -/
theorem total_set_of_notMem (out : cell ∉ cells) :
    total weight (set slots cell i value) cells = total weight slots cells := by
  refine sum_congr rfl fun other inside => ?_
  have ne : other ≠ cell := fun same => out (same ▸ inside)
  rw [set_of_ne_cell ne]

omit [DecidableEq I] in
/-- A cell without weight does not count. -/
theorem total_insert (none : ∀ i, weight (slots cell i) = 0) :
    total weight slots (insert cell cells) = total weight slots cells := by
  by_cases mem : cell ∈ cells
  · rw [insert_eq_of_mem mem]
  · rw [total, sum_insert mem, sum_eq_zero fun i _ => none i, zero_add, total]

end Zetascale.Slots
