import Mathlib

/-!
# Ordered versions

A multi-version ordered store keeps several versions of a key next to each
other, the newest first. `Pos` is the place of a version in such a store: keys
ascend, and the versions of one key descend. The version `⊤` is newer than
every stored one, so that `⟨k, ⊤⟩` is the place just before all versions of `k`.

The lemmas after it are about lists sorted by place: where a place cuts the
list, and what the cut says about the elements on both sides.
-/

namespace Zetascale

open List OrderDual

universe u v

/-- The place of a version in a multi-version ordered store. -/
@[ext]
structure Pos (Key : Type u) where
  key : Key
  version : WithTop ℕ
  deriving DecidableEq

namespace Pos

variable {Key : Type u}

/-- Keys ascend, versions descend. -/
def lexPair (p : Pos Key) : Key ×ₗ (WithTop ℕ)ᵒᵈ := toLex (p.key, toDual p.version)

theorem lexPair_injective : Function.Injective (lexPair : Pos Key → _) := by
  intro a b same
  have pair : (a.key, toDual a.version) = (b.key, toDual b.version) := same
  rw [Prod.mk.injEq] at pair
  exact Pos.ext pair.1 (OrderDual.toDual.injective pair.2)

variable [LinearOrder Key]

instance : LinearOrder (Pos Key) := LinearOrder.lift' lexPair lexPair_injective

variable {a b : Pos Key}

theorem lt_iff : a < b ↔ a.key < b.key ∨ a.key = b.key ∧ b.version < a.version := by
  change lexPair a < lexPair b ↔ _
  rw [lexPair, lexPair, Prod.Lex.toLex_lt_toLex]
  rfl

theorem le_iff : a ≤ b ↔ a.key < b.key ∨ a.key = b.key ∧ b.version ≤ a.version := by
  change lexPair a ≤ lexPair b ↔ _
  rw [lexPair, lexPair, Prod.Lex.toLex_le_toLex]
  rfl

theorem key_le_of_le (le : a ≤ b) : a.key ≤ b.key := by
  rcases le_iff.mp le with lt | ⟨same, -⟩
  · exact lt.le
  · exact same.le

theorem version_le_of_le (le : a ≤ b) (same : a.key = b.key) : b.version ≤ a.version := by
  rcases le_iff.mp le with lt | ⟨-, version⟩
  · exact absurd same lt.ne
  · exact version

theorem version_lt_of_lt (lt : a < b) (same : a.key = b.key) : b.version < a.version := by
  rcases lt_iff.mp lt with less | ⟨-, version⟩
  · exact absurd same less.ne
  · exact version

theorem lt_of_key_lt (lt : a.key < b.key) : a < b := lt_iff.mpr (.inl lt)

variable {k : Key}

/-- Nothing lies before the place of a key's newest version but smaller keys. -/
theorem lt_top_iff : a < ⟨k, ⊤⟩ ↔ a.key < k := by
  simp [lt_iff]

theorem top_le_iff : ⟨k, ⊤⟩ ≤ a ↔ k ≤ a.key := by
  rw [← not_lt, lt_top_iff, not_lt]

/-- The place right after a version: the next older one of its key. -/
theorem le_pred_iff {s : ℕ} (positive : 0 < s) :
    ⟨k, WithTop.some (s - 1)⟩ ≤ a ↔ ⟨k, WithTop.some s⟩ < a := by
  rw [le_iff, lt_iff]
  apply or_congr_right
  apply and_congr_right
  cases version : a.version using WithTop.recTopCoe with
  | top => simp
  | coe v =>
    rw [WithTop.coe_le_coe, WithTop.coe_lt_coe]
    omega

end Pos

/-! ## Lists sorted by place -/

variable {α : Type v} {P : Type u} [LinearOrder P] (pos : α → P)

/-- Strictly ascending places. -/
def SortedBy (l : List α) : Prop := l.Pairwise fun a b => pos a < pos b

/-- The index of the first element at or after a place. -/
def cutIndex (l : List α) (p : P) : ℕ := l.findIdx fun a => decide (p ≤ pos a)

variable {pos} {l l' : List α}

theorem SortedBy.sublist (sorted : SortedBy pos l') (sub : l.Sublist l') :
    SortedBy pos l := List.Pairwise.sublist sub sorted

theorem sortedBy_append :
    SortedBy pos (l ++ l') ↔ SortedBy pos l ∧ SortedBy pos l' ∧ ∀ a ∈ l, ∀ b ∈ l', pos a < pos b :=
  pairwise_append

theorem sortedBy_cons {a : α} : SortedBy pos (a :: l) ↔ (∀ b ∈ l, pos a < pos b) ∧ SortedBy pos l :=
  pairwise_cons

/-- Where the key changes, it does not come back. -/
theorem SortedBy.key_ne_of_next {Key : Type u} [LinearOrder Key] {pos : α → Pos Key} {a b : α}
    (sorted : SortedBy pos (l ++ a :: b :: l')) (other : (pos a).key ≠ (pos b).key) :
    ∀ x ∈ b :: l', (pos x).key ≠ (pos a).key := by
  obtain ⟨first, rest⟩ := sortedBy_cons.mp (sortedBy_append.mp sorted).2.1
  have less : (pos a).key < (pos b).key :=
    lt_of_le_of_ne (Pos.key_le_of_le (first b mem_cons_self).le) other
  refine forall_mem_cons.mpr ⟨other.symm, fun x later => ?_⟩
  exact (less.trans_le (Pos.key_le_of_le ((sortedBy_cons.mp rest).1 x later).le)).ne'

theorem cutIndex_le_length (l : List α) (p : P) : cutIndex pos l p ≤ l.length :=
  findIdx_le_length

variable {p : P}

/-- A list whose first part lies before a place and whose rest does not is cut there. -/
theorem cutIndex_append (before : ∀ a ∈ l, pos a < p)
    (after : ∀ a ∈ l', p ≤ pos a) : cutIndex pos (l ++ l') p = l.length := by
  induction l with
  | nil =>
    cases l' with
    | nil => rfl
    | cons a l' => simp [cutIndex, findIdx_cons, after a mem_cons_self]
  | cons a l ih =>
    have first : ¬ p ≤ pos a := not_le.mpr (before a mem_cons_self)
    have rest := ih fun b mem => before b (mem_cons_of_mem a mem)
    simp only [cutIndex] at rest
    simp [cutIndex, findIdx_cons, first, rest]

/-- Every place cuts a sorted list in what lies before it and what does not. -/
theorem SortedBy.exists_cut (sorted : SortedBy pos l) (p : P) :
    ∃ front back, l = front ++ back ∧ (∀ a ∈ front, pos a < p) ∧ (∀ a ∈ back, p ≤ pos a) ∧
      cutIndex pos l p = front.length := by
  induction l with
  | nil => exact ⟨[], [], rfl, by simp, by simp, rfl⟩
  | cons a l ih =>
    obtain ⟨above, sortedRest⟩ := sortedBy_cons.mp sorted
    by_cases first : pos a < p
    · obtain ⟨front, back, rfl, before, after, -⟩ := ih sortedRest
      have before' : ∀ b ∈ a :: front, pos b < p := forall_mem_cons.mpr ⟨first, before⟩
      exact ⟨a :: front, back, rfl, before', after, cutIndex_append before' after⟩
    · rw [not_lt] at first
      have after : ∀ b ∈ a :: l, p ≤ pos b := forall_mem_cons.mpr
        ⟨first, fun b mem => first.trans (above b mem).le⟩
      refine ⟨[], a :: l, rfl, by simp, after, ?_⟩
      exact cutIndex_append (l := []) (by simp) after

variable {i : ℕ}

/-- Elements below the cut lie before the place. -/
theorem SortedBy.lt_of_lt_cutIndex (sorted : SortedBy pos l)
    (lt : i < cutIndex pos l p) (bound : i < l.length) : pos l[i] < p := by
  obtain ⟨front, back, rfl, before, -, cut⟩ := sorted.exists_cut p
  rw [cut] at lt
  rw [getElem_append_left lt]
  exact before _ (getElem_mem lt)

/-- Elements from the cut on do not lie before the place. -/
theorem SortedBy.le_of_cutIndex_le (sorted : SortedBy pos l)
    (le : cutIndex pos l p ≤ i) (bound : i < l.length) : p ≤ pos l[i] := by
  obtain ⟨front, back, rfl, -, after, cut⟩ := sorted.exists_cut p
  rw [cut] at le
  rw [getElem_append_right le]
  exact after _ (getElem_mem _)

/-- In a sorted list the neighbours of an index decide whether the cut is there. -/
theorem SortedBy.cutIndex_eq (sorted : SortedBy pos l)
    (bound : i ≤ l.length) (before : ∀ j, i = j + 1 → ∀ h : j < l.length, pos l[j] < p)
    (after : ∀ h : i < l.length, p ≤ pos l[i]) : cutIndex pos l p = i := by
  have cutLe : cutIndex pos l p ≤ l.length := cutIndex_le_length l p
  rcases lt_trichotomy (cutIndex pos l p) i with less | same | more
  · obtain ⟨j, rfl⟩ : ∃ j, i = j + 1 := ⟨i - 1, by omega⟩
    have inside : j < l.length := by omega
    exact absurd (sorted.le_of_cutIndex_le (by omega) inside) (not_le.mpr (before j rfl inside))
  · exact same
  · have inside : i < l.length := by omega
    exact absurd (sorted.lt_of_lt_cutIndex more inside) (not_lt.mpr (after inside))

theorem cutIndex_map {β : Type*} (f : β → α) (l : List β) (p : P) :
    cutIndex pos (l.map f) p = cutIndex (pos ∘ f) l p := by
  unfold cutIndex
  rw [findIdx_map]
  rfl

theorem sortedBy_map {β : Type*} (f : β → α) (l : List β) :
    SortedBy pos (l.map f) ↔ SortedBy (pos ∘ f) l :=
  pairwise_map

end Zetascale
