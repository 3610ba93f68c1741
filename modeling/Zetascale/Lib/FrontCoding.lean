import Mathlib

/-!
# Common fronts of sequences

How many items two sequences have in common from their start. A sequence that
is known to share its front with another is rebuilt from that front and the
rest.
-/

namespace Zetascale.FrontCoding

open List

variable {α : Type} [DecidableEq α]

/-- The length of the common front of two sequences. -/
def common : List α → List α → ℕ
  | a :: as, b :: bs => if a = b then common as bs + 1 else 0
  | _, _ => 0

theorem common_le_left (as bs : List α) : common as bs ≤ as.length := by
  induction as generalizing bs with
  | nil => simp [common]
  | cons a as ih =>
    cases bs with
    | nil => simp [common]
    | cons b bs =>
      unfold common
      split
      · exact Nat.succ_le_succ (ih bs)
      · exact Nat.zero_le _

theorem common_comm (as bs : List α) : common as bs = common bs as := by
  induction as generalizing bs with
  | nil => cases bs <;> rfl
  | cons a as ih =>
    cases bs with
    | nil => rfl
    | cons b bs =>
      unfold common
      rw [ih bs]
      by_cases same : a = b
      · rw [if_pos same, if_pos same.symm]
      · rw [if_neg same, if_neg (Ne.symm same)]

theorem common_le_right (as bs : List α) : common as bs ≤ bs.length := by
  rw [common_comm]
  exact common_le_left bs as

theorem take_eq_of_le_common {as bs : List α} {n : ℕ} (shared : n ≤ common as bs) :
    as.take n = bs.take n := by
  induction as generalizing bs n with
  | nil =>
    have zero : n = 0 := by simpa [common] using shared
    simp [zero]
  | cons a as ih =>
    cases bs with
    | nil =>
      have zero : n = 0 := by simpa [common] using shared
      simp [zero]
    | cons b bs =>
      cases n with
      | zero => simp
      | succ n =>
        unfold common at shared
        split at shared
        · next same =>
          rw [take_succ_cons, take_succ_cons, same, ih (Nat.le_of_succ_le_succ shared)]
        · exact absurd shared (Nat.not_succ_le_zero n)

/-- What two neighbours share with the one between them, they share. -/
theorem le_common_trans {as bs cs : List α} {n : ℕ} (left : n ≤ common as bs)
    (right : n ≤ common bs cs) : n ≤ common as cs := by
  induction n generalizing as bs cs with
  | zero => exact Nat.zero_le _
  | succ n ih =>
    match as, bs, cs with
    | [], _, _ => simp [common] at left
    | _ :: _, [], _ => simp [common] at left
    | _ :: _, _ :: _, [] => simp [common] at right
    | a :: as, b :: bs, c :: cs =>
      unfold common at left right ⊢
      split at left
      · next first =>
        split at right
        · next second =>
          rw [if_pos (first.trans second)]
          exact Nat.succ_le_succ (ih (Nat.le_of_succ_le_succ left) (Nat.le_of_succ_le_succ right))
        · exact absurd right (Nat.not_succ_le_zero n)
      · exact absurd left (Nat.not_succ_le_zero n)

end Zetascale.FrontCoding
