import Zetascale.Btree.Snapshots

/-!
# The snapshot directory

`btree_snap_meta_t` (`btree/btree_snapshot.c`): an array with a place for every
snapshot that a metadata node has room for, of which the first `total_snapshots`
are in use. Its metadata node is written without errors. The part in use is the
list of snapshots of the tree.
-/

namespace Zetascale.Btree

open List

/-- `btree_snap_meta_t`, version 1. -/
structure SnapMeta where
  /-- the places, `max_snapshots` of them -/
  snapshots : List ℕ
  total_snapshots : ℕ

namespace SnapMeta

/-- `btree_snap_init` -/
def init (max_snapshots : ℕ) : SnapMeta := ⟨replicate max_snapshots 0, 0⟩

/-- The entries in use. -/
def entries (d : SnapMeta) : List ℕ := d.snapshots.take d.total_snapshots

/-- `btree_snap_create_meta` -/
def createMeta (d : SnapMeta) (seqno : ℕ) : Status × SnapMeta :=
  if d.snapshots.length ≤ d.total_snapshots then (.tooManySnapshots, d)
  else (.success, ⟨d.snapshots.set d.total_snapshots seqno, d.total_snapshots + 1⟩)

/-- `btree_snap_seqno_in_snap` -/
def seqnoInSnap (d : SnapMeta) (seqno : ℕ) : Bool :=
  !(decide (d.total_snapshots = 0) || decide (d.snapshots.getD (d.total_snapshots - 1) 0 < seqno))

/-- `btree_snap_find_meta_index_low`; `none` is -1. -/
def findMetaIndex (d : SnapMeta) (seqno : ℕ) : Option ℕ :=
  if d.total_snapshots = 0 ∨ d.snapshots.getD (d.total_snapshots - 1) 0 < seqno then none
  else snapFindLoop d.snapshots seqno (d.total_snapshots + 1) 0 d.total_snapshots

/-- `btree_snap_delete_meta`: the entries behind the one removed are moved down. -/
def deleteMeta (d : SnapMeta) (seqno : ℕ) : Status × SnapMeta :=
  match d.findMetaIndex seqno with
  | none => (.failure, d)
  | some index =>
    if d.snapshots.getD index 0 ≠ seqno then (.failure, d)
    else
      let moved := (d.snapshots.drop (index + 1)).take (d.total_snapshots - 1 - index)
      (.success, ⟨d.snapshots.take index ++ moved ++ d.snapshots.drop (d.total_snapshots - 1),
        d.total_snapshots - 1⟩)

/-- A call. -/
inductive Call
  | create (seqno : ℕ)
  | delete (seqno : ℕ)

/-- What a call answers and leaves. -/
def call (d : SnapMeta) : Call → Status × SnapMeta
  | .create seqno => d.createMeta seqno
  | .delete seqno => d.deleteMeta seqno

/-- The sequence number of a creation. -/
def Call.created : Call → Option ℕ
  | .create seqno => some seqno
  | .delete _ => none

/-- The directory after calls. -/
def after (d : SnapMeta) (calls : List Call) : SnapMeta := calls.foldl (fun d c => (d.call c).2) d

/-- As many entries are in use as are counted, in ascending order. -/
structure WellFormed (d : SnapMeta) : Prop where
  counted : d.entries.length = d.total_snapshots
  ascending : d.entries.Pairwise (· < ·)

/-- What a creation, a lookup and a deletion do in a directory of `max_snapshots` places. -/
structure Right (max_snapshots : ℕ) (d : SnapMeta) : Prop extends WellFormed d where
  places : d.snapshots.length = max_snapshots
  stored : d.total_snapshots < max_snapshots → ∀ seqno, (d.createMeta seqno).1 = .success ∧
    (d.createMeta seqno).2.entries = d.entries ++ [seqno]
  full : max_snapshots ≤ d.total_snapshots → ∀ seqno, d.createMeta seqno = (.tooManySnapshots, d)
  found : ∀ seqno index, d.findMetaIndex seqno = some index ↔ ∃ inside : index < d.entries.length,
    seqno ≤ d.entries[index] ∧ ∀ j (less : j < index), d.entries[j] < seqno
  active : ∀ seqno, d.findMetaIndex seqno = none ↔ d.seqnoInSnap seqno = false
  removed : ∀ seqno ∈ d.entries, (d.deleteMeta seqno).1 = .success ∧
    (d.deleteMeta seqno).2.entries = d.entries.filter (· != seqno)
  refused : ∀ seqno ∉ d.entries, d.deleteMeta seqno = (.failure, d)

variable {d : SnapMeta}

theorem WellFormed.inside (wf : d.WellFormed) : d.total_snapshots ≤ d.snapshots.length := by
  have counted := wf.counted
  rw [entries, length_take] at counted
  omega

/-- The entries in use are the places before the count. -/
theorem entries_getD {i : ℕ} (less : i < d.total_snapshots) :
    d.snapshots.getD i 0 = d.entries.getD i 0 := by
  simp [entries, getElem?_take_of_lt less]

/-- The search does not look at the places behind the count. -/
theorem snapFindLoop_entries (seqno fuel i_start stop : ℕ) (upto : stop ≤ d.total_snapshots) :
    snapFindLoop d.snapshots seqno fuel i_start stop =
      snapFindLoop d.entries seqno fuel i_start stop := by
  induction fuel generalizing i_start stop with
  | zero => rfl
  | succ fuel ih =>
    unfold snapFindLoop
    split_ifs with more
    · have here : (i_start + stop - 1) / 2 < d.total_snapshots := by omega
      have before : (i_start + stop - 1) / 2 - 1 < d.total_snapshots := by omega
      simp only [entries_getD here, entries_getD before, ih _ _ upto, ih _ _ here.le]
    · rfl

section

variable (wf : d.WellFormed)

include wf

theorem WellFormed.last : d.entries.getLast? =
      if d.total_snapshots = 0 then none else some (d.snapshots.getD (d.total_snapshots - 1) 0) := by
  rw [getLast?_eq_getElem?, wf.counted]
  split_ifs with empty
  · rw [getElem?_eq_none (by rw [wf.counted]; omega)]
  · have less : d.total_snapshots - 1 < d.total_snapshots := by omega
    rw [entries_getD less, getD_eq_getElem?_getD,
      getElem?_eq_getElem (by rw [wf.counted]; omega), Option.getD_some]

/-- The search in the array is the one in the list of the snapshots. -/
theorem WellFormed.findMetaIndex_eq (seqno : ℕ) :
    d.findMetaIndex seqno = snapshotFor d.entries seqno := by
  rw [← btreeSnapFindMetaIndex_eq wf.ascending]
  unfold findMetaIndex btreeSnapFindMetaIndex
  rw [wf.last, wf.counted, snapFindLoop_entries _ _ _ _ le_rfl]
  by_cases empty : d.total_snapshots = 0
  · simp [empty]
  · simp [empty]

omit wf in
/-- A creation fills the first place that is not in use. -/
theorem createMeta_stored (room : d.total_snapshots < d.snapshots.length) (seqno : ℕ) :
    (d.createMeta seqno).1 = .success ∧ (d.createMeta seqno).2.entries = d.entries ++ [seqno] := by
  have inside : d.total_snapshots < (d.snapshots.set d.total_snapshots seqno).length := by
    rwa [length_set]
  rw [createMeta, if_neg room.not_ge]
  refine ⟨rfl, ?_⟩
  simp only [entries]
  rw [take_add_one, getElem?_eq_getElem inside, getElem_set_self, take_set_of_le le_rfl]
  rfl

omit wf in
theorem createMeta_full (full : d.snapshots.length ≤ d.total_snapshots) (seqno : ℕ) :
    d.createMeta seqno = (.tooManySnapshots, d) := if_pos full

omit wf in
theorem length_createMeta (seqno : ℕ) :
    (d.createMeta seqno).2.snapshots.length = d.snapshots.length := by
  unfold createMeta
  split_ifs with full
  · rfl
  · exact length_set

theorem WellFormed.create {seqno : ℕ} (newer : ∀ s ∈ d.entries, s < seqno) :
    (d.createMeta seqno).2.WellFormed ∧
      ∀ s ∈ (d.createMeta seqno).2.entries, s ∈ d.entries ∨ s = seqno := by
  rcases Nat.lt_or_ge d.total_snapshots d.snapshots.length with room | full
  · have grown := (createMeta_stored room seqno).2
    have total : (d.createMeta seqno).2.total_snapshots = d.total_snapshots + 1 := by
      rw [createMeta, if_neg room.not_ge]
    refine ⟨⟨?_, ?_⟩, fun s mem => ?_⟩
    · rw [grown, total, length_append, wf.counted]
      rfl
    · rw [grown, pairwise_append]
      exact ⟨wf.ascending, pairwise_singleton _ _, fun s mem n isN =>
        mem_singleton.mp isN ▸ newer s mem⟩
    · simpa [grown] using mem
  · rw [createMeta_full full]
    exact ⟨wf, fun s mem => .inl mem⟩

theorem WellFormed.delete_eq (seqno : ℕ) : (seqno ∈ d.entries → (d.deleteMeta seqno).1 = .success ∧
      (d.deleteMeta seqno).2.total_snapshots = d.total_snapshots - 1 ∧
      (d.deleteMeta seqno).2.snapshots.length = d.snapshots.length ∧
      (d.deleteMeta seqno).2.entries = d.entries.erase seqno) ∧
    (seqno ∉ d.entries → d.deleteMeta seqno = (.failure, d)) := by
  have inside := wf.inside
  unfold deleteMeta
  rw [wf.findMetaIndex_eq]
  have nodup : d.entries.Nodup := wf.ascending.imp ne_of_lt
  cases first : snapshotFor d.entries seqno with
  | none =>
    refine ⟨fun mem => ?_, fun _ => rfl⟩
    exact absurd (snapshotFor_eq_none.mp first seqno mem) (lt_irrefl _)
  | some index =>
    obtain ⟨bound, -⟩ := snapshotFor_eq_some.mp first
    have less : index < d.total_snapshots := wf.counted ▸ bound
    simp only [entries_getD less, ne_eq, snapshotFor_getD_eq wf.ascending first]
    refine ⟨fun mem => ?_, fun absent => if_pos absent⟩
    rw [if_neg (not_not.mpr mem)]
    have same := (snapshotFor_getD_eq wf.ascending first).mpr mem
    rw [getD_eq_getElem _ _ bound] at same
    have cut : (d.snapshots.take index ++
        (d.snapshots.drop (index + 1)).take (d.total_snapshots - 1 - index)).length =
          d.total_snapshots - 1 := by
      simp only [length_append, length_take, length_drop]
      omega
    refine ⟨rfl, rfl, ?_, ?_⟩
    · rw [length_append, cut, length_drop]
      omega
    rw [← same, nodup.erase_getElem, eraseIdx_eq_take_drop_succ]
    simp only [entries, take_take, drop_take]
    rw [take_left' cut, min_eq_left less.le, Nat.sub_sub, add_comm 1 index]

theorem WellFormed.delete (seqno : ℕ) :
    (d.deleteMeta seqno).2.WellFormed ∧
      (d.deleteMeta seqno).2.snapshots.length = d.snapshots.length ∧
      ∀ s ∈ (d.deleteMeta seqno).2.entries, s ∈ d.entries := by
  obtain ⟨present, absent⟩ := wf.delete_eq seqno
  by_cases mem : seqno ∈ d.entries
  · obtain ⟨-, total, places, erased⟩ := present mem
    refine ⟨⟨?_, ?_⟩, places, fun s sMem => mem_of_mem_erase (erased ▸ sMem)⟩
    · rw [erased, total, length_erase_of_mem mem, wf.counted]
    · rw [erased]
      exact wf.ascending.sublist erase_sublist
  · rw [absent mem]
    exact ⟨wf, rfl, fun s sMem => sMem⟩

theorem WellFormed.right : d.Right d.snapshots.length := by
  refine ⟨wf, rfl, createMeta_stored, createMeta_full, fun seqno index => ?_, fun seqno => ?_, fun seqno mem => ?_,
    fun seqno => (wf.delete_eq seqno).2⟩
  · rw [wf.findMetaIndex_eq]
    exact snapshotFor_eq_some
  · by_cases isActive : d.total_snapshots = 0 ∨ d.snapshots.getD (d.total_snapshots - 1) 0 < seqno
    · refine iff_of_true (if_pos isActive) ?_
      rw [seqnoInSnap, ← Bool.decide_or, decide_eq_true isActive, Bool.not_true]
    · have answer : d.seqnoInSnap seqno = true := by simpa [seqnoInSnap] using isActive
      rw [answer, wf.findMetaIndex_eq, snapshotFor_eq_none]
      refine iff_of_false (fun older => isActive ?_) Bool.noConfusion
      -- the last entry would be older too
      rcases Nat.eq_zero_or_pos d.total_snapshots with empty | more
      · exact .inl empty
      · right
        have bound : d.total_snapshots - 1 < d.entries.length := by
          rw [wf.counted]
          omega
        rw [entries_getD (by omega), getD_eq_getElem _ _ bound]
        exact older _ (getElem_mem bound)
  · obtain ⟨success, -, -, erased⟩ := (wf.delete_eq seqno).1 mem
    have nodup : d.entries.Nodup := wf.ascending.imp ne_of_lt
    exact ⟨success, erased.trans (nodup.erase_eq_filter seqno)⟩

theorem WellFormed.after {calls : List Call}
    (increasing : (calls.filterMap Call.created).Pairwise (· < ·))
    (newer : ∀ s ∈ d.entries, ∀ n ∈ calls.filterMap Call.created, s < n) :
    (d.after calls).WellFormed ∧ (d.after calls).snapshots.length = d.snapshots.length := by
  induction calls generalizing d with
  | nil => exact ⟨wf, rfl⟩
  | cons first rest ih =>
    cases first with
    | create seqno =>
      obtain ⟨ahead, increasing⟩ := pairwise_cons.mp increasing
      obtain ⟨wf', among⟩ := wf.create fun s mem => newer s mem seqno mem_cons_self
      rw [← length_createMeta (d := d) seqno]
      refine ih wf' increasing fun s mem n later => ?_
      rcases among s mem with old | rfl
      · exact newer s old n (mem_cons_of_mem _ later)
      · exact ahead n later
    | delete seqno =>
      obtain ⟨wf', places, among⟩ := wf.delete seqno
      rw [← places]
      exact ih wf' increasing fun s mem => newer s (among s mem)

end

/-- The directory is right after any calls that create snapshots with
increasing sequence numbers and delete any. -/
theorem snapshot_directory_right (max_snapshots : ℕ) (calls : List Call)
    (increasing : (calls.filterMap Call.created).Pairwise (· < ·)) :
    ((init max_snapshots).after calls).Right max_snapshots := by
  have empty : (init max_snapshots).entries = [] := rfl
  have wf : (init max_snapshots).WellFormed := ⟨rfl, by simp [empty]⟩
  obtain ⟨wf', places⟩ := wf.after increasing (by simp [empty])
  have right := wf'.right
  rwa [places, init, length_replicate] at right

theorem snapshot_directory_right_of_three :
    ((init 4).after [.create 3, .create 5, .delete 3, .create 9, .delete 4]).Right 4 :=
  snapshot_directory_right 4 _ (by decide)

end SnapMeta

end Zetascale.Btree
