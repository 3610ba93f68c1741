import Zetascale.Lib.VersionOrder

/-!
# What readers see of a list of versions

A reader asks for a key as of a version number and gets the first version in
the list that is not newer. In a sorted list this is the latest one. A version
without a value says that the key is absent. The lemmas say which changes of
the list a reader does not notice, and what it sees of a new version.
-/

namespace Zetascale

open List Option

universe u v w

variable {α : Type u} {K : Type v} {V : Type w} [LinearOrder K] (pos : α → Pos K)
  (value : α → Option V)

/-- The version of a key that a reader at `bound` sees. -/
def visible (l : List α) (key : K) (bound : WithTop ℕ) : Option α :=
  l.find? fun a => decide ((pos a).key = key ∧ (pos a).version ≤ bound)

/-- The value of a key for a reader at `bound`. -/
def lookup (l : List α) (key : K) (bound : WithTop ℕ) : Option V :=
  (visible pos l key bound).bind value

variable {pos value} {l l' : List α} {a b : α} {key : K} {bound : WithTop ℕ}

theorem visible_append : visible pos (l ++ l') key bound =
    (visible pos l key bound).or (visible pos l' key bound) :=
  find?_append

theorem visible_cons : visible pos (a :: l) key bound =
    if (pos a).key = key ∧ (pos a).version ≤ bound then some a else visible pos l key bound := by
  unfold visible
  rw [find?_cons]
  by_cases seen : (pos a).key = key ∧ (pos a).version ≤ bound
  · simp [seen]
  · rw [if_neg seen]
    simp [decide_eq_false seen]

theorem visible_eq_none : visible pos l key bound = none ↔
    ∀ a ∈ l, (pos a).key = key → ¬ (pos a).version ≤ bound := by
  simp [visible]

theorem visible_some (seen : visible pos l key bound = some a) :
    a ∈ l ∧ (pos a).key = key ∧ (pos a).version ≤ bound := by
  have holds := find?_some seen
  exact ⟨mem_of_find?_eq_some seen, by simpa using holds⟩

/-- A reader that is newer than all versions sees what the newest one does. -/
theorem visible_all (all : ∀ x ∈ l, (pos x).version ≤ bound) :
    visible pos l key bound = visible pos l key ⊤ := by
  induction l with
  | nil => rfl
  | cons x rest ih =>
    have here : (pos x).version ≤ bound := all x mem_cons_self
    rw [visible_cons, visible_cons, ih fun y mem => all y (mem_cons_of_mem x mem)]
    simp [here]

/-- A reader that sees nothing before a place. -/
theorem visible_append_right (before : ∀ x ∈ l, (pos x).key = key → ¬ (pos x).version ≤ bound) :
    visible pos (l ++ l') key bound = visible pos l' key bound := by
  rw [visible_append, visible_eq_none.mpr before, none_or]

/-- A version that is newer than the reader, or of another key, does not count. -/
theorem visible_skip (hidden : (pos a).key = key → ¬ (pos a).version ≤ bound) :
    visible pos (l ++ a :: l') key bound = visible pos (l ++ l') key bound := by
  have other : ¬ ((pos a).key = key ∧ (pos a).version ≤ bound) := fun ⟨same, le⟩ => hidden same le
  rw [visible_append, visible_append, visible_cons, if_neg other]

/-- In a sorted list the cut at the reader's place decides what it sees. -/
theorem visible_cut (sorted : SortedBy pos (l ++ l'))
    (before : ∀ x ∈ l, pos x < ⟨key, bound⟩) (after : ∀ x ∈ l', ⟨key, bound⟩ ≤ pos x) :
    visible pos (l ++ l') key bound = l'.head?.filter fun a => decide ((pos a).key = key) := by
  rw [visible_append_right]
  · cases l' with
    | nil => rfl
    | cons b rest =>
      rw [visible_cons, head?_cons, filter_some]
      by_cases same : (pos b).key = key
      · have le : (pos b).version ≤ bound :=
          Pos.version_le_of_le (after b mem_cons_self) same.symm
        simp [same, le]
      · have invisible : visible pos rest key bound = none := by
          rw [visible_eq_none]
          intro x mem sameX
          have less := (sortedBy_cons.mp (sortedBy_append.mp sorted).2.1).1 x mem
          have keyLe := Pos.key_le_of_le less.le
          have keyGe := Pos.key_le_of_le (after b mem_cons_self)
          exact absurd (le_antisymm (keyLe.trans sameX.le) keyGe) same
        simp [same, invisible]
  · intro x mem same le
    exact absurd le (not_le.mpr (Pos.version_lt_of_lt (before x mem) same))

/-! ### Changes that a reader does not notice -/

/-- An older version is not missed by a reader that sees the newer one next to
it whenever it sees the older one. -/
theorem visible_drop_shadowed (same : (pos a).key = (pos b).key)
    (shadowed : (pos b).version ≤ bound → (pos a).version ≤ bound) :
    visible pos (l ++ a :: b :: l') key bound = visible pos (l ++ a :: l') key bound := by
  rw [visible_append, visible_append, visible_cons, visible_cons, visible_cons]
  split_ifs with seen older
  · rfl
  · exact absurd ⟨same.trans older.1, shadowed older.2⟩ seen
  · rfl

/-- A version without a value is not missed when there is no older one. -/
theorem lookup_drop_expired (absent : value a = none)
    (oldest : ∀ x ∈ l', (pos x).key ≠ (pos a).key) :
    lookup pos value (l ++ a :: l') key bound = lookup pos value (l ++ l') key bound := by
  unfold lookup
  rw [visible_append, visible_append, visible_cons]
  split_ifs with seen
  · have invisible : visible pos l' key bound = none :=
      visible_eq_none.mpr fun x mem same _ => oldest x mem (same.trans seen.1.symm)
    rw [invisible]
    cases visible pos l key bound <;> simp [absent]
  · rfl

/-! ### New versions -/

/-- A new version is what a reader sees that is not older. -/
theorem visible_insert (first : ∀ x ∈ l, (pos x).key ≠ (pos a).key)
    (seen : (pos a).version ≤ bound) : visible pos (l ++ a :: l') (pos a).key bound = some a := by
  rw [visible_append_right fun x mem same => absurd same (first x mem), visible_cons,
    if_pos ⟨rfl, seen⟩]

end Zetascale
