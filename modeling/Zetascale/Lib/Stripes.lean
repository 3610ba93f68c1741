import Mathlib

/-!
# Cells dealt out over stripes

A region of `files * depth` cells is cut into `files` stripes of `depth` consecutive cells. Cells
are handed out one from each stripe in turn. A start handed out this way leaves room for one or two
consecutive cells whenever the count says so, and for three or more only by luck.
-/

namespace Zetascale.Stripes

/-- The place of the `n`th cell handed out. -/
def stripe (files depth n : ℕ) : ℕ :=
  n % files * depth + n / files

section

variable {files depth n m count : ℕ}

/-- Cell `n` has a stripe and a row in it. -/
theorem exists_row (below : n < files * depth) :
    ∃ row column, row < depth ∧ column < files ∧ n = files * row + column ∧
      stripe files depth n = column * depth + row := by
  have filesPos : 0 < files := Nat.pos_of_lt_mul_right below
  exact ⟨n / files, n % files, Nat.div_lt_of_lt_mul below, Nat.mod_lt _ filesPos,
    (Nat.div_add_mod n files).symm, rfl⟩

theorem stripe_row {row column : ℕ} (inside : column < files) :
    stripe files depth (files * row + column) = column * depth + row := by
  rw [stripe, Nat.mul_add_mod, Nat.mod_eq_of_lt inside, Nat.mul_add_div (by omega),
    Nat.div_eq_of_lt inside, add_zero]

theorem stripe_lt (below : n < files * depth) : stripe files depth n < files * depth := by
  obtain ⟨row, column, rowLt, columnLt, _, place⟩ := exists_row below
  have upTo : (column + 1) * depth ≤ files * depth := Nat.mul_le_mul_right _ columnLt
  rw [Nat.succ_mul] at upTo
  omega

/-- No place is handed out twice. -/
theorem stripe_injective (below : n < files * depth) (below' : m < files * depth)
    (same : stripe files depth n = stripe files depth m) : n = m := by
  obtain ⟨row, column, rowLt, _, rfl, place⟩ := exists_row below
  obtain ⟨row', column', rowLt', _, rfl, place'⟩ := exists_row below'
  rw [place, place'] at same
  have depthPos : 0 < depth := by omega
  have columns : column = column' := by
    have := congrArg (· / depth) same
    simpa only [mul_comm _ depth, Nat.mul_add_div depthPos, Nat.div_eq_of_lt rowLt,
      Nat.div_eq_of_lt rowLt', add_zero] using this
  subst columns
  have rows : row = row' := Nat.add_left_cancel same
  rw [rows]

/-- When the consecutive cells from the next start fit the region. -/
def Fits (files depth count : ℕ) : Prop :=
  count ≤ 2 ∨ files * depth ≤ count ∨ files ≤ 1 ∨ depth ≤ 1

instance : Decidable (Fits files depth count) :=
  inferInstanceAs (Decidable (_ ∨ _))

theorem stripe_add_two_le (room : n + 2 ≤ files * depth) :
    stripe files depth n + 2 ≤ files * depth := by
  obtain ⟨row, column, rowLt, columnLt, rfl, place⟩ := exists_row (show n < files * depth by omega)
  rw [place]
  rcases lt_or_ge (column + 1) files with before | last
  · have upTo : (column + 2) * depth ≤ files * depth := Nat.mul_le_mul_right _ before
    rw [add_mul] at upTo
    omega
  · -- in the last stripe a row is left, or `n` would be the last cell
    obtain rfl : files = column + 1 := by omega
    have rows : row + 1 < depth := by
      by_contra full
      obtain rfl : depth = row + 1 := by omega
      rw [Nat.mul_succ] at room
      omega
    rw [Nat.succ_mul]
    omega

theorem stripe_add_le (fits : Fits files depth count) (positive : 0 < count)
    (room : n + count ≤ files * depth) : stripe files depth n + count ≤ files * depth := by
  have below : n < files * depth := by omega
  have filesPos : 0 < files := Nat.pos_of_lt_mul_right below
  have depthPos : 0 < depth := Nat.pos_of_lt_mul_left below
  rcases fits with few | all | oneFile | oneRow
  · have inside := stripe_lt below
    rcases lt_or_ge count 2 with one | two
    · omega
    · obtain rfl : count = 2 := by omega
      exact stripe_add_two_le room
  · obtain rfl : n = 0 := by omega
    rw [stripe, Nat.zero_mod, Nat.zero_div, zero_mul]
    omega
  · obtain rfl : files = 1 := by omega
    rwa [stripe, Nat.mod_one, zero_mul, zero_add, Nat.div_one]
  · obtain rfl : depth = 1 := by omega
    rw [mul_one] at below
    rwa [stripe, Nat.mod_eq_of_lt below, Nat.div_eq_of_lt below, mul_one]

/-- A cell of the last stripe comes after all places handed out before it. -/
theorem stripe_lt_last {row : ℕ} (below : m < (files + 1) * row + files) (rowLt : row < depth) :
    stripe (files + 1) depth m < files * depth + row := by
  have rows : (files + 1) * row + files < (files + 1) * depth := by
    have := Nat.mul_le_mul_left (files + 1) rowLt
    rw [Nat.mul_succ] at this
    omega
  obtain ⟨row', column, rowLt', columnLt, rfl, place⟩ :=
    exists_row (show m < (files + 1) * depth by omega)
  rcases lt_or_ge column files with before | last
  · have := Nat.mul_le_mul_right depth (show column + 1 ≤ files by omega)
    rw [Nat.succ_mul] at this
    omega
  · obtain rfl : column = files := by omega
    have : row' < row := by
      by_contra later
      have := Nat.mul_le_mul_left (column + 1) (not_lt.mp later)
      omega
    omega

/-- Otherwise the region is left from some start, with every place from there on still free. -/
theorem exists_stripe_past (misfit : ¬ Fits files depth count) :
    ∃ n, n + count ≤ files * depth ∧ files * depth < stripe files depth n + count ∧
      ∀ m < n, stripe files depth m < stripe files depth n := by
  simp only [Fits, not_or, not_le] at misfit
  obtain ⟨three, inside, manyFiles, manyRows⟩ := misfit
  obtain ⟨last, rfl⟩ : ∃ last, files = last + 1 := ⟨files - 1, by omega⟩
  rcases lt_or_ge depth count with tall | short
  · -- a stripe's first row
    have firstRow : ∀ m ≤ last, stripe (last + 1) depth m = m * depth := fun m upTo => by
      rw [stripe, Nat.mod_eq_of_lt (by omega), Nat.div_eq_of_lt (by omega), add_zero]
    obtain ⟨n, upTo, positive, room, past⟩ : ∃ n ≤ last, 0 < n ∧ n + count ≤ (last + 1) * depth ∧
        (last + 1) * depth < n * depth + count := by
      rcases lt_or_ge ((last + 1) * depth) (last + count) with full | room
      · have double := Nat.mul_le_mul_left ((last + 1) * depth - count) manyRows
        exact ⟨(last + 1) * depth - count, by omega, by omega, by omega, by omega⟩
      · refine ⟨last, le_rfl, by omega, room, ?_⟩
        rw [Nat.succ_mul]
        omega
    refine ⟨n, room, by rwa [firstRow n upTo], fun m before => ?_⟩
    rw [firstRow m (by omega), firstRow n upTo]
    exact Nat.mul_lt_mul_of_pos_right before (by omega)
  · -- row `depth - count + 1` of the last stripe
    obtain ⟨row, rfl⟩ : ∃ row, depth = row + count := ⟨depth - count, by omega⟩
    refine ⟨(last + 1) * (row + 1) + last, ?_, ?_, fun m before => ?_⟩
    · have wide := mul_le_mul (show 1 ≤ last by omega) (show 1 ≤ count - 2 by omega)
      calc (last + 1) * (row + 1) + last + count
          ≤ (last + 1) * (row + 1) + last + count + (last * (count - 2) - 1) := Nat.le_add_right _ _
        _ = (last + 1) * (row + count) := by
          obtain ⟨more, rfl⟩ : ∃ more, count = more + 3 := ⟨count - 3, by omega⟩
          obtain ⟨files, rfl⟩ : ∃ files, last = files + 1 := ⟨last - 1, by omega⟩
          rw [show more + 3 - 2 = more + 1 by omega,
            show (files + 1) * (more + 1) - 1 = files * more + files + more by
              rw [add_mul, mul_add]; omega]
          ring
    · rw [stripe_row (by omega), Nat.succ_mul]
      omega
    · rw [stripe_row (by omega)]
      exact stripe_lt_last before (by omega)

end

variable {size width g g' first k count : ℕ}

/-- The blocks of `count` cells of `width` blocks, from cell `first` of the `g`th region of `size`
blocks. -/
def blocks (size width g first count : ℕ) : Set ℕ :=
  Set.Ico (g * size + first * width) (g * size + (first + count) * width)

theorem blocks_subset (inside : first + count ≤ size / width) :
    blocks size width g first count ⊆ Set.Ico (g * size) ((g + 1) * size) := by
  apply Set.Ico_subset_Ico (Nat.le_add_right _ _)
  have cells : (first + count) * width ≤ size :=
    (Nat.mul_le_mul_right _ inside).trans (Nat.div_mul_le_self _ _)
  rw [Nat.succ_mul]
  omega

/-- Other cells of the region have other blocks. -/
theorem blocks_disjoint_cell (other : ∀ i < count, first + i ≠ k) :
    Disjoint (blocks size width g first count) (blocks size width g k 1) := by
  rw [blocks, blocks, Set.Ico_disjoint_Ico]
  rcases lt_or_ge k first with before | inside
  · have := Nat.mul_le_mul_right width before
    exact (min_le_right _ _).trans ((Nat.add_le_add_left this _).trans (le_max_left _ _))
  · have past : first + count ≤ k := by
      by_contra within
      exact other (k - first) (by omega) (by omega)
    have := Nat.mul_le_mul_right width past
    exact (min_le_left _ _).trans ((Nat.add_le_add_left this _).trans (le_max_right _ _))

/-- So do cells of another region, of whatever width. -/
theorem blocks_disjoint_region {width' first' count' : ℕ} (apart : g ≠ g')
    (inside : first + count ≤ size / width) (inside' : first' + count' ≤ size / width') :
    Disjoint (blocks size width g first count) (blocks size width' g' first' count') := by
  refine Set.disjoint_of_subset (blocks_subset inside) (blocks_subset inside') ?_
  rw [Set.Ico_disjoint_Ico]
  rcases Nat.lt_or_gt_of_ne apart with before | after
  · have := Nat.mul_le_mul_right size before
    exact (min_le_left _ _).trans (this.trans (le_max_right _ _))
  · have := Nat.mul_le_mul_right size after
    exact (min_le_right _ _).trans (this.trans (le_max_left _ _))

end Zetascale.Stripes
