import Mathlib

/-!
# Items laid out one after another

A list of items of given sizes fills a stretch of memory without gaps. An item
is found by the offset it starts at, and a stretch is cut at an offset where an
item starts. An offset inside an item is not the place of anything.
-/

namespace Zetascale.Extents

open List

variable {α : Type} (size : α → ℕ)

/-- The bytes the items take. -/
def total (items : List α) : ℕ := (items.map size).sum

/-- The item that starts at an offset. -/
def itemAt : List α → ℕ → Option α
  | [], _ => none
  | item :: items, off =>
    if off = 0 then some item
    else if off < size item then none
    else itemAt items (off - size item)

/-- The items of the first bytes. -/
def before : List α → ℕ → Option (List α)
  | [], off => if off = 0 then some [] else none
  | item :: items, off =>
    if off = 0 then some []
    else if off < size item then none
    else (item :: ·) <$> before items (off - size item)

/-- The items from an offset on. -/
def after : List α → ℕ → Option (List α)
  | [], off => if off = 0 then some [] else none
  | item :: items, off =>
    if off = 0 then some (item :: items)
    else if off < size item then none
    else after items (off - size item)

/-- Change the item that starts at an offset. -/
def modifyAt (f : α → α) : List α → ℕ → Option (List α)
  | [], _ => none
  | item :: items, off =>
    if off = 0 then some (f item :: items)
    else if off < size item then none
    else (item :: ·) <$> modifyAt f items (off - size item)

section

variable {size} {items more : List α} {item : α}

@[simp] theorem total_nil : total size [] = 0 := rfl

@[simp] theorem total_cons : total size (item :: items) = size item + total size items := by
  simp [total]

@[simp] theorem total_append : total size (items ++ more) = total size items + total size more := by
  simp [total]

end

/-! With no empty items, the place of an item is its own. -/

variable {size} (positive : ∀ item, 0 < size item)

include positive

theorem itemAt_total (items : List α) (item : α) (more : List α) :
    itemAt size (items ++ item :: more) (total size items) = some item := by
  induction items with
  | nil => simp [itemAt]
  | cons first items ih =>
    have nonzero := positive first
    rw [cons_append, itemAt, total_cons, if_neg (by omega), if_neg (by omega),
      Nat.add_sub_cancel_left]
    exact ih

theorem before_total (items more : List α) :
    before size (items ++ more) (total size items) = some items := by
  induction items with
  | nil => cases more <;> simp [before]
  | cons first items ih =>
    have nonzero := positive first
    rw [cons_append, before, total_cons, if_neg (by omega), if_neg (by omega),
      Nat.add_sub_cancel_left, ih]
    rfl

theorem after_total (items more : List α) :
    after size (items ++ more) (total size items) = some more := by
  induction items with
  | nil => cases more <;> simp [after]
  | cons first items ih =>
    have nonzero := positive first
    rw [cons_append, after, total_cons, if_neg (by omega), if_neg (by omega),
      Nat.add_sub_cancel_left]
    exact ih

theorem modifyAt_total (f : α → α) (items : List α) (item : α) (more : List α) :
    modifyAt size f (items ++ item :: more) (total size items) =
      some (items ++ f item :: more) := by
  induction items with
  | nil => simp [modifyAt]
  | cons first items ih =>
    have nonzero := positive first
    rw [cons_append, modifyAt, total_cons, if_neg (by omega), if_neg (by omega),
      Nat.add_sub_cancel_left, ih]
    rfl

end Zetascale.Extents
