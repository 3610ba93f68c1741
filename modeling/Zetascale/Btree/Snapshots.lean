import Zetascale.Btree.Tree

/-!
# Snapshots

The search of `btree_snap_find_meta_index` in the ascending list of snapshots,
and what its answers say about two versions: one that is in no snapshot is
newer than all of them, and two in the same place are seen by the same
snapshots.
-/

namespace Zetascale.Btree

open List

variable {snapshots : List ℕ} {seqno index : ℕ}

/-- The first snapshot that is not older than a sequence number. -/
def snapshotFor (snapshots : List ℕ) (seqno : ℕ) : Option ℕ :=
  snapshots.findIdx? fun s => decide (seqno ≤ s)

theorem snapshotFor_eq_none : snapshotFor snapshots seqno = none ↔ ∀ s ∈ snapshots, s < seqno := by
  simp [snapshotFor]

theorem snapshotFor_eq_some : snapshotFor snapshots seqno = some index ↔
    ∃ inside : index < snapshots.length, seqno ≤ snapshots[index] ∧
      ∀ j (less : j < index), snapshots[j] < seqno := by
  unfold snapshotFor
  rw [findIdx?_eq_some_iff_getElem]
  simp

section

variable (sorted : snapshots.Pairwise (· < ·))

include sorted

/-- The loop finds the first snapshot that is not older, between its ends. -/
theorem snapFindLoop_eq (first : snapshotFor snapshots seqno = some index) {fuel i_start stop : ℕ}
    (enough : stop - i_start < fuel) (starts : i_start ≤ index) (below : index < stop)
    (inside : stop ≤ snapshots.length) :
    snapFindLoop snapshots seqno fuel i_start stop = some index := by
  obtain ⟨bound, upto, before⟩ := snapshotFor_eq_some.mp first
  induction fuel generalizing i_start stop with
  | zero => omega
  | succ fuel ih =>
    unfold snapFindLoop
    rw [if_pos (by omega)]
    have middleBound : (i_start + stop - 1) / 2 < snapshots.length := by omega
    have predBound : (i_start + stop - 1) / 2 - 1 < snapshots.length := by omega
    simp only [getD_eq_getElem _ _ middleBound, getD_eq_getElem _ _ predBound]
    by_cases reached : seqno ≤ snapshots[(i_start + stop - 1) / 2]
    · have le : index ≤ (i_start + stop - 1) / 2 := by
        by_contra beyond
        have less := before _ (not_le.mp beyond)
        omega
      rw [if_pos reached]
      by_cases isFirst : (i_start + stop - 1) / 2 = 0 ∨
          snapshots[(i_start + stop - 1) / 2 - 1] < seqno
      · rw [if_pos isFirst]
        rcases le.eq_or_lt with same | less
        · rw [same]
        · rcases isFirst with zero | older
          · omega
          · rcases (Nat.le_sub_one_of_lt less).eq_or_lt with same | earlier
            · simp only [← same] at older
              omega
            · have less := pairwise_iff_getElem.mp sorted _ _ bound predBound earlier
              omega
      · rw [if_neg isFirst]
        rw [not_or] at isFirst
        apply ih (by omega) starts _ (by omega)
        rcases le.eq_or_lt with same | less
        · have older := before ((i_start + stop - 1) / 2 - 1) (by omega)
          exact absurd older isFirst.2
        · exact less
    · rw [if_neg reached]
      apply ih (by omega) _ below inside
      by_contra beyond
      have le : index ≤ (i_start + stop - 1) / 2 := by omega
      rcases le.eq_or_lt with same | less
      · simp only [← same] at reached
        exact reached upto
      · have later := pairwise_iff_getElem.mp sorted _ _ bound middleBound less
        omega

theorem btreeSnapFindMetaIndex_eq (seqno : ℕ) :
    btreeSnapFindMetaIndex snapshots seqno = snapshotFor snapshots seqno := by
  unfold btreeSnapFindMetaIndex
  rcases eq_nil_or_concat snapshots with rfl | ⟨front, last, rfl⟩
  · rfl
  rw [concat_eq_append] at sorted ⊢
  simp only [getLast?_append, getLast?_singleton, Option.some_or]
  have upto : ∀ s ∈ front ++ [last], s ≤ last := by
    intro s mem
    rcases mem_append.mp mem with inFront | isLast
    · exact ((pairwise_append.mp sorted).2.2 s inFront last (by simp)).le
    · exact (mem_singleton.mp isLast).le
  split_ifs with newer
  · rw [eq_comm, snapshotFor_eq_none]
    exact fun s mem => (upto s mem).trans_lt newer
  · cases first : snapshotFor (front ++ [last]) seqno with
    | none =>
      have less := snapshotFor_eq_none.mp first last (by simp)
      omega
    | some index =>
      obtain ⟨bound, -⟩ := snapshotFor_eq_some.mp first
      exact snapFindLoop_eq sorted first (by omega) (Nat.zero_le _) bound le_rfl

/-- Of two versions in the same place, every snapshot sees the one if it sees
the other. -/
theorem upto_of_same_snapshot {seqno' s : ℕ}
    (same : btreeSnapFindMetaIndex snapshots seqno = btreeSnapFindMetaIndex snapshots seqno')
    (mem : s ∈ snapshots) (upto : seqno' ≤ s) : seqno ≤ s := by
  rw [btreeSnapFindMetaIndex_eq sorted, btreeSnapFindMetaIndex_eq sorted] at same
  cases first : snapshotFor snapshots seqno' with
  | none => exact absurd upto (not_le.mpr (snapshotFor_eq_none.mp first s mem))
  | some index =>
    rw [first] at same
    obtain ⟨bound, le, -⟩ := snapshotFor_eq_some.mp same
    obtain ⟨_, _, before⟩ := snapshotFor_eq_some.mp first
    obtain ⟨i, iBound, rfl⟩ := getElem_of_mem mem
    rcases lt_trichotomy i index with less | rfl | more
    · exact absurd upto (not_le.mpr (before i less))
    · exact le
    · exact le.trans (pairwise_iff_getElem.mp sorted _ _ bound iBound more).le

/-- A sequence number is one of the snapshots if it is the first that is not older. -/
theorem snapshotFor_getD_eq (first : snapshotFor snapshots seqno = some index) :
    snapshots.getD index 0 = seqno ↔ seqno ∈ snapshots := by
  obtain ⟨bound, upto, before⟩ := snapshotFor_eq_some.mp first
  rw [getD_eq_getElem _ _ bound]
  refine ⟨fun same => same ▸ getElem_mem bound, fun mem => ?_⟩
  obtain ⟨i, iBound, rfl⟩ := getElem_of_mem mem
  rcases lt_trichotomy i index with less | rfl | more
  · exact absurd (before i less) (lt_irrefl _)
  · rfl
  · have newer := pairwise_iff_getElem.mp sorted _ _ bound iBound more
    omega

end

/-- `btree_snap_delete_meta` removes the snapshot with the sequence number, if
there is one. -/
theorem btreeSnapDeleteMeta_eq {κ : Type} {t : Tree κ} (sorted : t.snapshots.Pairwise (· < ·))
    (seqno : ℕ) : btreeSnapDeleteMeta t seqno =
      if seqno ∈ t.snapshots then (.success, { t with snapshots := t.snapshots.erase seqno })
      else (.failure, t) := by
  unfold btreeSnapDeleteMeta
  rw [btreeSnapFindMetaIndex_eq sorted]
  cases first : snapshotFor t.snapshots seqno with
  | none =>
    have absent : seqno ∉ t.snapshots := fun mem =>
      absurd (snapshotFor_eq_none.mp first seqno mem) (lt_irrefl _)
    rw [if_neg absent]
  | some index =>
    simp only [snapshotFor_getD_eq sorted first]
    split_ifs with mem
    · obtain ⟨bound, -⟩ := snapshotFor_eq_some.mp first
      have same := (snapshotFor_getD_eq sorted first).mpr mem
      rw [getD_eq_getElem _ _ bound] at same
      have nodup : t.snapshots.Nodup := sorted.imp ne_of_lt
      rw [← same, nodup.erase_getElem]
    · rfl

end Zetascale.Btree
