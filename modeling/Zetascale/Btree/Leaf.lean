import Zetascale.Lib.Readers
import Zetascale.Btree.Search

/-!
# Leaves

The operations of `btree/btree_var_leaf.c` on the entries of one leaf: finding
a key, deciding whether an object still fits, choosing where to split, and
writing one entry. `none` is a failed assertion.
-/

namespace Zetascale.Btree

open List Option

section

variable {κ : Type} [LinearOrder κ] (cfg : Config κ)

/-- `btree_leaf_find_key`. -/
def btreeLeafFindKey (entries : List (Entry κ)) (key : κ) (smeta : SeqFilter) : ℕ × Bool :=
  bsearchKeyLow (entries.map Entry.stuff) key smeta .latest

/-- `btree_leaf_is_key_tombstoned`. -/
def btreeLeafIsKeyTombstoned (entries : List (Entry κ)) (index : ℕ) : Bool :=
  match entries[index]? with
  | some e => e.tombstone
  | none => false

/-- `MAX_META_SIZE`. -/
def maxMetaSize : ℕ := sizeofEntryHeader + btreeLeafGetMaxMeta

/-- The bytes by which replacing the data of an object can make its entry
larger, as `btree_leaf_is_full_index` estimates them. -/
def updateBytesNeeded (keylen oldDatalen datalen : ℕ) : ℕ :=
  cfg.datalenInLeaf keylen datalen + (getKeyMetaType keylen datalen).size -
    cfg.datalenInLeaf keylen oldDatalen

/-- `btree_leaf_is_full_index`: whether an object does not fit, as an update of
the entry at the index or as a new entry. -/
def btreeLeafIsFullIndex (entries : List (Entry κ)) (key : κ) (datalen : ℕ) (key_exists : Bool)
    (index : ℕ) : Bool :=
  let keylen := cfg.keylen key
  let used := btreeLeafUsedSpace cfg entries
  if entries.length ≤ index ∧
      used + (keylen + cfg.datalenInLeaf keylen datalen + maxMetaSize) < cfg.nodesizeLessHdr
  then false
  else
    let needed :=
      if key_exists then
        match entries[index]? with
        | some old => updateBytesNeeded cfg keylen old.datalen datalen
        | none => 0
      else entrySize cfg keylen datalen
    decide (cfg.nodesizeLessHdr < used + needed)

/-- The `header_offset` of an entry: the bytes of the entries before it,
without their headers. -/
def headerOffset (entries : List (Entry κ)) (index : ℕ) : ℕ :=
  ((entries.take index).map fun e => keyMetaSpaceUsed cfg (cfg.keylen e.key) e.datalen).sum

/-- The search of `btree_leaf_find_split_idx` below the middle. -/
def splitIdxDown (entries : List (Entry κ)) (half : ℕ) : ℕ → ℕ
  | 0 => 0
  | middle + 1 =>
    if headerOffset cfg entries middle ≤ half + sizeofEntryHeader then middle
    else splitIdxDown entries half middle

/-- The search of `btree_leaf_find_split_idx` above the middle. -/
def splitIdxUp (entries : List (Entry κ)) (half : ℕ) : ℕ → ℕ → ℕ
  | 0, middle => middle
  | fuel + 1, middle =>
    if middle + 1 < entries.length then
      if half < headerOffset cfg entries (middle + 1) + sizeofEntryHeader then middle
      else splitIdxUp entries half fuel (middle + 1)
    else middle

/-- `btree_leaf_find_split_idx`: the last entry that stays in the left half. -/
def btreeLeafFindSplitIdx (entries : List (Entry κ)) : Option ℕ :=
  let half := btreeLeafUsedSpace cfg entries / 2
  let middle := entries.length / 2
  let found :=
    if half < headerOffset cfg entries middle + sizeofEntryHeader * middle then
      splitIdxDown cfg entries half middle
    else splitIdxUp cfg entries half entries.length middle
  if entries.length < 2 then none
  else if entries.length ≤ found + 1 then some (entries.length - 2)
  else some found

/-- The entry of an object whose overflow data starts at `ptr`. The smallest
metadata has no room for `ptr`. -/
def Entry.make (key : κ) (seqno : ℕ) (tombstone : Bool) (data : Data) (ptr : ℕ) : Entry κ where
  key := key
  seqno := seqno
  tombstone := tombstone
  datalen := data.length
  ptr := if getKeyMetaType (cfg.keylen key) data.length = .type2 then 0 else ptr
  inleaf := data.take (cfg.datalenInLeaf (cfg.keylen key) data.length)

/-- `btree_leaf_update_key`: replaces the entry at the index or inserts before
it. -/
def btreeLeafUpdateKey (entries : List (Entry κ)) (e : Entry κ) (index : ℕ) (key_exists : Bool) :
    Option (List (Entry κ)) :=
  if cfg.keylen e.key < cfg.maxKeySize then
    let kept := if key_exists then entries.eraseIdx index else entries
    let changed := kept.take index ++ e :: kept.drop index
    if btreeLeafUsedSpace cfg changed ≤ cfg.nodesizeLessHdr then some changed else none
  else none

end

variable {κ : Type} [LinearOrder κ] {cfg : Config κ} {entries : List (Entry κ)} {key : κ}

omit [LinearOrder κ] in
/-- An entry begins within the used space of its leaf. -/
theorem headerOffset_le (cfg : Config κ) (entries : List (Entry κ)) (index : ℕ) :
    headerOffset cfg entries index ≤ btreeLeafUsedSpace cfg entries := by
  refine le_trans ?_ (btreeLeafUsedSpace_sublist cfg (take_sublist index entries))
  refine sum_le_sum fun e _ => ?_
  simp [Entry.size, entrySize]

omit [LinearOrder κ] in
/-- Replacing data never takes more than a new entry. -/
theorem updateBytesNeeded_le (cfg : Config κ) (keylen oldDatalen datalen : ℕ) :
    updateBytesNeeded cfg keylen oldDatalen datalen ≤ entrySize cfg keylen datalen := by
  simp only [updateBytesNeeded, entrySize, keyMetaSpaceUsed]
  omega

theorem btreeLeafFindKey_index (sorted : SortedBy Entry.pos entries) (smeta : SeqFilter)
    (key : κ) : (btreeLeafFindKey entries key smeta).1 =
      cutIndex Entry.pos entries (smeta.place key) := by
  have located := bsearchKeyLow_locates ((sortedBy_map Entry.stuff entries).mpr sorted) smeta key
  exact located.index.symm.trans (cutIndex_map Entry.stuff entries _)

theorem btreeLeafFindKey_found (sorted : SortedBy Entry.pos entries) (smeta : SeqFilter)
    (key : κ) : (btreeLeafFindKey entries key smeta).2 = true ↔
      ∃ e, entries[cutIndex Entry.pos entries (smeta.place key)]? = some e ∧ e.key = key ∧
        smeta.Passes e.seqno := by
  have located := bsearchKeyLow_locates ((sortedBy_map Entry.stuff entries).mpr sorted) smeta key
  have index := btreeLeafFindKey_index sorted smeta key
  unfold btreeLeafFindKey at index ⊢
  rw [located.found, index]
  simp [Entry.stuff]

theorem btreeLeafFindKey_reader (sorted : SortedBy Entry.pos entries) (key : κ)
    (bound : WithTop ℕ) : (btreeLeafFindKey entries key (.reader bound)).2 =
        (visible Entry.pos entries key bound).isSome ∧
      ∀ e, visible Entry.pos entries key bound = some e →
        entries[(btreeLeafFindKey entries key (.reader bound)).1]? = some e := by
  have found := btreeLeafFindKey_found sorted (.reader bound) key
  have index := btreeLeafFindKey_index sorted (.reader bound) key
  rw [SeqFilter.reader_place] at found index
  obtain ⟨front, back, rfl, before, after, cut⟩ := sorted.exists_cut (⟨key, bound⟩ : Pos κ)
  rw [visible_cut sorted before after]
  rw [cut, getElem?_append_right le_rfl, Nat.sub_self, ← head?_eq_getElem?] at found
  rw [index, cut, getElem?_append_right le_rfl, Nat.sub_self, ← head?_eq_getElem?]
  constructor
  · rw [Bool.eq_iff_iff, found, isSome_iff_exists]
    apply exists_congr
    intro e
    rw [filter_eq_some_iff, decide_eq_true_eq, Entry.pos_key, SeqFilter.reader_passes]
    apply and_congr_right
    intro first
    apply and_iff_left_of_imp
    intro same
    exact Pos.version_le_of_le (after e (mem_of_mem_head? first)) same.symm
  · intro e seen
    exact (filter_eq_some_iff.mp seen).1

omit [LinearOrder κ] in
theorem btreeLeafFindSplitIdx_isSome (cfg : Config κ) (two : 2 ≤ entries.length) :
    ∃ index, btreeLeafFindSplitIdx cfg entries = some index := by
  unfold btreeLeafFindSplitIdx
  rw [if_neg (by omega)]
  split_ifs <;> exact ⟨_, rfl⟩

omit [LinearOrder κ] in
theorem btreeLeafFindSplitIdx_lt {index : ℕ}
    (found : btreeLeafFindSplitIdx cfg entries = some index) : index + 1 < entries.length := by
  simp only [btreeLeafFindSplitIdx] at found
  split_ifs at found <;> simp only [some.injEq] at found <;> omega

omit [LinearOrder κ] in
theorem exists_halves {index : ℕ} (inside : index + 1 < entries.length) :
    ∃ l last r, entries = l ++ [last] ++ r ∧ l.length = index ∧ r ≠ [] := by
  refine ⟨entries.take index, entries[index], entries.drop (index + 1), ?_, ?_, ?_⟩
  · rw [append_assoc, singleton_append, cons_getElem_drop_succ, take_append_drop]
  · rw [length_take]
    omega
  · rw [ne_eq, drop_eq_nil_iff]
    omega

end Zetascale.Btree
