import Zetascale.Btree.RangeUpdateRun

/-!
# Splitting a full leaf until an object fits

The loop of `btree_msplit_child` over a leaf and the insertion that follows it.
`_ZSWriteObject` admits keys of up to `max_key_size` bytes. The leaf code asserts
that a key is shorter than that, a split needs two entries, which only keys of
at most `big_object_size` bytes ensure, and the loop asks whether the object fits
as an update also when it is going to be a new version.
-/

namespace Zetascale.Btree

open List

variable {κ : Type} [LinearOrder κ]

/-- The leaves of a tree that are not leaves of another are not empty. -/
def NewLeavesFilled (t t' : Tree κ) : Prop :=
  ∀ id next entries, t'.nodes id = some (.leaf next entries) →
    t.nodes id = some (.leaf next entries) ∨ entries ≠ []

/-- How the loop should end for a leaf with these entries: no split has left an
empty leaf, and the parent is full, or the leaf reached is the one of the key, has
room for the object, and takes it without an assert. -/
def SplitInserts (cfg : Config κ) (obj : Obj κ) (t : Tree κ) (d : ℕ) (sp : Slot (Pos κ))
    (entries : List (Entry κ)) : Option (Tree κ × Option ℕ) → Prop
  | none => False
  | some (t', none) => NewLeavesFilled t t' ∧ ¬ NotFull cfg t' sp.id
  | some (t', some id) =>
    let here := entriesOf t'.nodes id
    NewLeavesFilled t t' ∧ (∃ hi, LeafOf t' (d + 1) obj.key ⟨id, hi⟩ here) ∧
      needsSplit cfg obj here = false ∧
      (finishWrite cfg t' obj .set id (btreeLeafFindKey here obj.key .any).1
        (btreeLeafFindKey here obj.key .any).2
        (isUpdate t obj entries (btreeLeafFindKey entries obj.key .any).1
          (btreeLeafFindKey entries obj.key .any).2)).isSome = true ∧
      -- `key_meta_to_key_metax`: the smallest metadata has no pointer
      (cfg.bigObjectKd (cfg.keylen obj.key) obj.data.length = true →
        getKeyMetaType (cfg.keylen obj.key) obj.data.length ≠ .type2)

/-- What the insertion needs of an object: a key and data that the leaf code takes,
and where the key is there already in a version that a snapshot has, room for one more
version in the half that the loop takes to have room for an update. -/
structure InsertFits (cfg : Config κ) (t : Tree κ) (obj : Obj κ) (entries : List (Entry κ)) :
    Prop where
  small : cfg.keylen obj.key < cfg.maxKeySize
  writable : cfg.Writable (cfg.keylen obj.key) obj.data.length
  newVersion : (btreeLeafFindKey entries obj.key .any).2 = true →
    isUpdate t obj entries (btreeLeafFindKey entries obj.key .any).1
      (btreeLeafFindKey entries obj.key .any).2 = false →
    ∀ entries', HalvedTo cfg obj entries entries' →
      btreeLeafIsFullIndex cfg entries' obj.key obj.data.length false
        (btreeLeafFindKey entries' obj.key .any).1 = false

/-- The scavenger finds nothing in a leaf. -/
def NothingToScavenge (snapshots : List ℕ) (entries : List (Entry κ)) : Prop :=
  ∀ e kept, ¬ Removal snapshots entries e kept

section

variable {cfg : Config κ} {obj : Obj κ} {t t' : Tree κ} {h h' d nk last : ℕ} {s sp : Slot (Pos κ)}
  {entries : List (Entry κ)} {versions : List (Entry κ × Data)}

omit [LinearOrder κ] in
theorem NewLeavesFilled.trans {t₁ : Tree κ} (first : NewLeavesFilled t t₁)
    (second : NewLeavesFilled t₁ t') : NewLeavesFilled t t' := by
  intro id next entries stored
  rcases second id next entries stored with before | filled
  · exact first id next entries before
  · exact .inr filled

omit [LinearOrder κ] in
theorem newLeavesFilled_splitNodes {c p : ℕ} {left right above : Node κ}
    (filled : ∀ n ∈ [left, right, above], ∀ next, n ≠ .leaf next []) :
    NewLeavesFilled t (t.splitNodes c left right p above) := by
  simp only [mem_cons, not_mem_nil, or_false, forall_eq_or_imp, forall_eq] at filled
  obtain ⟨leftFilled, rightFilled, aboveFilled⟩ := filled
  intro id next entries stored
  rw [Tree.splitNodes_nodes] at stored
  split_ifs at stored
  · exact .inr fun empty => aboveFilled next (empty ▸ Option.some.inj stored)
  · exact .inr fun empty => leftFilled next (empty ▸ Option.some.inj stored)
  · exact .inr fun empty => rightFilled next (empty ▸ Option.some.inj stored)
  · exact .inl stored

theorem Reshape.newLeavesFilled (change : Reshape cfg t h t' h') : NewLeavesFilled t t' := by
  cases change with
  | root =>
    intro id next entries stored
    rw [splitRoot_nodes] at stored
    split_ifs at stored
    · cases stored
    · exact .inl stored
  | nonleaf => exact newLeavesFilled_splitNodes (by simp)
  | leaf split fits more => exact newLeavesFilled_splitNodes (by simp [more])

theorem Reshapes.newLeavesFilled (changes : Reshapes cfg t h t' h') : NewLeavesFilled t t' := by
  induction changes with
  | refl => exact fun _ _ _ stored => .inl stored
  | step change _ ih => exact change.newLeavesFilled.trans ih

omit [LinearOrder κ] in
/-- A new version that has room is found to have it. -/
theorem notFull_of_room {key : κ} {datalen index : ℕ} (fits : btreeLeafUsedSpace cfg entries +
      entrySize cfg (cfg.keylen key) datalen ≤ cfg.nodesizeLessHdr) :
    btreeLeafIsFullIndex cfg entries key datalen false index = false := by
  simp only [btreeLeafIsFullIndex, Bool.false_eq_true, if_false]
  split_ifs
  · rfl
  · exact decide_eq_false (not_lt.mpr fits)

omit [LinearOrder κ] in
/-- What can be removed in a part of a leaf can be removed in the leaf. -/
theorem Removal.of_part {snapshots : List ℕ} {part kept : List (Entry κ)} {e : Entry κ}
    (removal : Removal snapshots part e kept) (l r : List (Entry κ)) :
    Removal snapshots (l ++ part ++ r) e (l ++ kept ++ r) := by
  cases removal with
  | @shadowed l' r' a _ same together =>
    have whole : Removal snapshots (l ++ l' ++ a :: e :: (r' ++ r)) e (l ++ l' ++ a :: (r' ++ r)) :=
      .shadowed same together
    simpa using whole
  | @expired l' r' _ b dead other =>
    have whole : Removal snapshots (l ++ l' ++ e :: b :: (r' ++ r)) e (l ++ l' ++ b :: (r' ++ r)) :=
      .expired dead other
    simpa using whole

theorem halfFor_within (entries : List (Entry κ)) (key : κ) : halfFor cfg entries key <:+: entries := by
  unfold halfFor
  split
  · exact infix_rfl
  · split
    · exact infix_rfl
    · split_ifs
      · exact (drop_suffix _ _).isInfix
      · exact ( take_prefix _ _).isInfix

theorem HalvedTo.infix {entries' : List (Entry κ)} (halved : HalvedTo cfg obj entries entries') :
    entries' <:+: entries := by
  induction halved with
  | last => exact halfFor_within _ _
  | again _ _ ih => exact ih.trans (halfFor_within _ _)

theorem HalvedTo.unique {entries' entries'' : List (Entry κ)}
    (halved : HalvedTo cfg obj entries entries') (halved' : HalvedTo cfg obj entries entries'') :
    entries' = entries'' := by
  induction halved with
  | last enough => exact (halved'.once enough).symm
  | again more _ ih =>
    cases halved' with
    | last enough => cases more.symm.trans enough
    | again _ rest => exact ih rest

omit [LinearOrder κ] in
/-- A big object that was inserted has data. -/
theorem btreeLeafInsertLow_nonempty {index : ℕ} {key_exists : Bool} {changed : List (Entry κ)}
    (inserted : btreeLeafInsertLow cfg t entries obj.key obj.data obj.seqno obj.tombstone index
      key_exists = some (t', changed))
    (big : cfg.bigObjectKd (cfg.keylen obj.key) obj.data.length = true) : obj.data.length ≠ 0 := by
  obtain ⟨freed, -, inserted⟩ := Option.bind_eq_some_iff.mp inserted
  intro empty
  simp only [insertEntry, if_pos big, if_pos empty] at inserted
  cases inserted

/-- What an insertion has needed in a leaf in which nothing was scavenged. -/
theorem finishWrite_needs {id next : ℕ} {is_update : Bool}
    (stored : t.nodes id = some (.leaf next entries)) (sorted : SortedBy Entry.pos entries)
    (update : is_update = true → (latestIn entries obj.key).isSome = true)
    (quiet : NothingToScavenge t.snapshots entries)
    (ran : (finishWrite cfg t obj .set id (btreeLeafFindKey entries obj.key .any).1
      (btreeLeafFindKey entries obj.key .any).2 is_update).isSome = true) :
    cfg.keylen obj.key < cfg.maxKeySize ∧
      (cfg.bigObjectKd (cfg.keylen obj.key) obj.data.length = true → obj.data.length ≠ 0) ∧
      (is_update = false → btreeLeafUsedSpace cfg entries +
        entrySize cfg (cfg.keylen obj.key) obj.data.length ≤ cfg.nodesizeLessHdr) := by
  rw [finishWrite_eq stored sorted update] at ran
  have outcome := scavengeNode_outcome cfg t sorted
  generalize scavengeNode cfg t entries = result at outcome ran
  cases outcome with
  | failed => cases ran
  | done removals =>
    cases removals with
    | step removal => exact absurd removal (quiet _ _)
    | refl =>
      simp only [Option.bind_some, insertKeysLeaf, reduceCtorEq, false_and, or_self, if_false] at ran
      obtain ⟨result, ran⟩ := Option.isSome_iff_exists.mp ran
      obtain ⟨⟨t', changed⟩, inserted, -⟩ := Option.bind_eq_some_iff.mp ran
      have nonempty := btreeLeafInsertLow_nonempty inserted
      obtain ⟨ptr, -, updated⟩ := btreeLeafInsertLow_some inserted
      unfold btreeLeafUpdateKey at updated
      obtain ⟨small, updated⟩ := Option.ite_none_right_eq_some.mp updated
      refine ⟨small, nonempty, ?_⟩
      rintro rfl
      obtain ⟨fits, -⟩ := Option.ite_none_right_eq_some.mp updated
      have made : (Entry.make cfg obj.key obj.seqno obj.tombstone obj.data ptr).size cfg =
          entrySize cfg (cfg.keylen obj.key) obj.data.length := rfl
      have split := congrArg (btreeLeafUsedSpace cfg)
        (take_append_drop (btreeLeafFindKey entries obj.key .any).1 entries)
      simp only [Bool.false_and, Bool.false_eq_true, if_false, btreeLeafUsedSpace_append,
        btreeLeafUsedSpace_cons, made] at fits split
      omega

end

/-- Seven objects, of which the last four are in the right one of two leaves, and a
snapshot of them. -/
def sevenObjects : List (Op ℕ) :=
  [5, 6, 7, 8, 9, 10, 11].map (fun key => .write key (.replicate 150 1) (key - 4) .set) ++
    [.snapCreate 8]

/-- The right leaf. -/
def fourEntries : List (Entry ℕ) :=
  [8, 9, 10, 11].map fun key => ⟨key, key - 4, false, 150, 0, .replicate 150 1⟩

theorem sevenObjects_inv : ∃ versions, Inv sampleTree (treeAfter sevenObjects) 1 8 versions := by
  obtain ⟨h, versions, inv⟩ := treeAfter_inv sevenObjects 8 (by decide +kernel) (by decide +kernel)
  have height : (treeAfter sevenObjects).rootLevel = h := inv.shape.rootLevel_eq
  have level : (treeAfter sevenObjects).rootLevel = 1 := by decide +kernel
  rw [level] at height
  exact ⟨versions, height ▸ inv⟩

set_option maxRecDepth 4000 in
theorem sevenObjects_right (key : ℕ) (above : 7 < key) :
    ChildAt (treeAfter sevenObjects) 0 key ⟨2, ⊤⟩ 1 ⟨3, ⊤⟩ ∧
      LeafOf (treeAfter sevenObjects) 1 key ⟨3, ⊤⟩ fourEntries := by
  have parent : (treeAfter sevenObjects).nodes 2 = some (.nonleaf 1 0 [⟨7, 3, 1⟩] 3) := by
    decide +kernel
  have leaf : (treeAfter sevenObjects).nodes 3 = some (.leaf 0 fourEntries) := by decide +kernel
  have root : (treeAfter sevenObjects).level 0 = [⟨2, ⊤⟩] := by decide +kernel
  have covers : Covers ((treeAfter sevenObjects).level 1) ⟨key, ⊤⟩ ⟨3, ⊤⟩ := by
    refine ⟨[⟨1, ((⟨7, WithTop.some 3⟩ : Pos ℕ) : WithTop (Pos ℕ))⟩], [], by decide +kernel, ?_, le_top⟩
    intro x mem
    rw [mem_singleton] at mem
    rw [mem]
    exact WithTop.coe_lt_coe.mpr (Pos.lt_of_key_lt above)
  refine ⟨⟨?_, ⟨1, 0, [⟨7, 3, 1⟩], 3, parent, le_rfl, rfl⟩, covers⟩, covers, 0, leaf⟩
  exact ⟨[], [], root, by simp, le_top⟩

/-- A new version of a key that the snapshot has. -/
def nextVersion : Obj ℕ := ⟨10, .replicate 150 2, 9, false⟩

/-- An object whose key has `max_key_size` bytes. -/
def longestKey : Obj ℕ := ⟨172, [2], 9, false⟩

end Zetascale.Btree
