import Zetascale.Lib.VersionOrder

/-!
# Tilings of an order

A sorted sequence kept in pieces: cells from left to right, each with an upper
bound and the items above the bound before it. `Tiled` says that the items of
the cells are where their bounds put them. The lemmas take a tiling apart and
put it together again around one cell, and show that the items of all cells in
order are one sorted list.
-/

namespace Zetascale

open List WithTop

universe u v

/-- An upper bound with the items below it. -/
structure Cell (P : Type u) (α : Type v) where
  hi : WithTop P
  items : List α

variable {P : Type u} {α : Type v} [LinearOrder P] (pos : α → P)

/-- The items lie above `lo` and not above `hi`, in order. -/
structure Between (lo : WithBot (WithTop P)) (hi : WithTop P) (items : List α) : Prop where
  sorted : SortedBy pos items
  above : ∀ a ∈ items, lo < ((pos a : WithTop P) : WithBot (WithTop P))
  below : ∀ a ∈ items, (pos a : WithTop P) ≤ hi

/-- Cells whose items lie between their bounds, from `lo` on. -/
def Tiled (lo : WithBot (WithTop P)) : List (Cell P α) → Prop
  | [] => True
  | c :: rest => lo < c.hi ∧ Between pos lo c.hi c.items ∧ Tiled c.hi rest

/-- The bound at which a list of cells ends. -/
def endOf (lo : WithBot (WithTop P)) : List (Cell P α) → WithBot (WithTop P)
  | [] => lo
  | c :: rest => endOf c.hi rest

variable {pos} {lo : WithBot (WithTop P)} {cells cells' : List (Cell P α)} {c : Cell P α}

omit [LinearOrder P] in
@[simp] theorem endOf_append_singleton (lo : WithBot (WithTop P)) (cells : List (Cell P α))
    (c : Cell P α) : endOf lo (cells ++ [c]) = c.hi := by
  induction cells generalizing lo with
  | nil => rfl
  | cons c' cells ih => exact ih c'.hi

theorem tiled_append : Tiled pos lo (cells ++ cells') ↔
    Tiled pos lo cells ∧ Tiled pos (endOf lo cells) cells' := by
  induction cells generalizing lo with
  | nil => simp [Tiled, endOf]
  | cons c cells ih =>
    rw [cons_append, Tiled, Tiled, endOf, ih]
    tauto

theorem tiled_cons : Tiled pos lo (c :: cells) ↔
    lo < c.hi ∧ Between pos lo c.hi c.items ∧ Tiled pos c.hi cells := Iff.rfl

/-- Items between two bounds can be cut at a bound between them. -/
theorem Between.split {hi : WithTop P} {left right : List α} {mid : P}
    (between : Between pos lo hi (left ++ right)) (leftLe : ∀ a ∈ left, pos a ≤ mid)
    (rightGt : ∀ a ∈ right, mid < pos a) :
    Between pos lo mid left ∧ Between pos (mid : WithTop P) hi right := by
  obtain ⟨sorted, above, below⟩ := between
  obtain ⟨sortedLeft, sortedRight, -⟩ := sortedBy_append.mp sorted
  constructor
  · refine ⟨sortedLeft, fun a mem => above a (mem_append_left _ mem), ?_⟩
    intro a mem
    exact coe_le_coe.mpr (leftLe a mem)
  · refine ⟨sortedRight, ?_, fun a mem => below a (mem_append_right _ mem)⟩
    intro a mem
    exact WithBot.coe_lt_coe.mpr (coe_lt_coe.mpr (rightGt a mem))

/-- Fewer items stay between their bounds. -/
theorem Between.sublist {hi : WithTop P} {items items' : List α} (between : Between pos lo hi items)
    (sub : items'.Sublist items) : Between pos lo hi items' where
  sorted := between.sorted.sublist sub
  above := fun a mem => between.above a (sub.subset mem)
  below := fun a mem => between.below a (sub.subset mem)

/-- Every item of a tiling lies above its start. -/
theorem Tiled.above (tiled : Tiled pos lo cells) {a : α} (mem : a ∈ cells.flatMap Cell.items) :
    lo < ((pos a : WithTop P) : WithBot (WithTop P)) := by
  induction cells generalizing lo with
  | nil => simp at mem
  | cons c cells ih =>
    obtain ⟨start, between, rest⟩ := tiled
    rw [flatMap_cons, mem_append] at mem
    rcases mem with here | later
    · exact between.above a here
    · exact start.trans (ih rest later)

/-- The items of a cell lie above the bounds of the cells before it. -/
theorem Tiled.before (tiled : Tiled pos lo (cells ++ c :: cells')) {d : Cell P α} (mem : d ∈ cells)
    {a : α} (item : a ∈ c.items) : d.hi < pos a := by
  obtain ⟨front, back, rfl⟩ := append_of_mem mem
  rw [append_assoc, cons_append, tiled_append, tiled_cons] at tiled
  exact WithBot.coe_lt_coe.mp (tiled.2.2.2.above (by simp [item]))

/-- The items of a tiling, from left to right, are one sorted list. -/
theorem Tiled.sorted (tiled : Tiled pos lo cells) : SortedBy pos (cells.flatMap Cell.items) := by
  induction cells generalizing lo with
  | nil => exact List.Pairwise.nil
  | cons c cells ih =>
    obtain ⟨-, between, rest⟩ := tiled
    rw [flatMap_cons, sortedBy_append]
    refine ⟨between.sorted, ih rest, fun a here b later => ?_⟩
    have upto : (pos a : WithTop P) ≤ c.hi := between.below a here
    have beyond := rest.above later
    exact coe_lt_coe.mp (upto.trans_lt (WithBot.coe_lt_coe.mp beyond))

/-- The bounds of a tiling ascend. -/
theorem Tiled.ascending (tiled : Tiled pos lo cells) :
    (∀ c ∈ cells, lo < c.hi) ∧ cells.Pairwise fun a b => a.hi < b.hi := by
  induction cells generalizing lo with
  | nil => simp
  | cons c cells ih =>
    obtain ⟨start, -, rest⟩ := tiled
    obtain ⟨above, ascending⟩ := ih rest
    refine ⟨?_, pairwise_cons.mpr ⟨fun d mem => WithBot.coe_lt_coe.mp (above d mem), ascending⟩⟩
    exact forall_mem_cons.mpr ⟨start, fun d later => start.trans (above d later)⟩

end Zetascale
