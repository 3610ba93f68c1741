import Zetascale.Btree.Overflow
import Zetascale.Btree.Descend

/-!
# Writing in a leaf

What a write does once it is at the leaf of its key: versions that nobody can
ask for go, and the object goes in. `Shape.setLeaf` says that the tree stays in
shape when the entries of one leaf are exchanged for others between the same
bounds.
-/

namespace Zetascale.Btree

open List Option Pos

/-! ## The entries of one leaf -/

variable {κ : Type} {t t₁ : Tree κ} {h next : ℕ} {s : Slot (Pos κ)} {entries changed : List (Entry κ)}
  {pre post : List (Slot (Pos κ))}

theorem setNode_nodes (t : Tree κ) (id id' : ℕ) (n : Node κ) :
    (t.setNode id n).nodes id' = if id' = id then some n else t.nodes id' := by
  simp [Tree.setNode, Function.update_apply]

theorem setNode_stored (t : Tree κ) (id : ℕ) (n : Node κ) : (t.setNode id n).nodes id = some n :=
  Function.update_self _ _ _

/-- Leaves have no children, so their entries do not matter for the levels. -/
theorem setLeaf_level (stored : t.nodes s.id = some (.leaf next entries)) (same : SameNodes t t₁)
    (d : ℕ) : (t₁.setNode s.id (.leaf next changed)).level d = t.level d := by
  have top : [(⟨(t₁.setNode s.id (.leaf next changed)).rootid, ⊤⟩ : Slot (Pos κ))] =
      [⟨t.rootid, ⊤⟩] := by
    simp [Tree.setNode, same.rootid]
  unfold Tree.level
  rw [top]
  apply level_congr
  intro j less x mem
  unfold childSlots
  rw [setNode_nodes, same.nodes]
  split_ifs with here
  · rw [here, stored]
    rfl
  · rfl

theorem setLeaf_entriesOf (same : SameNodes t t₁) (id : ℕ) :
    entriesOf (t₁.setNode s.id (.leaf next changed)).nodes id =
      if id = s.id then changed else entriesOf t.nodes id := by
  unfold entriesOf
  rw [setNode_nodes, same.nodes]
  split_ifs <;> rfl

theorem Tree.Seqnos.setLeaf {P : ℕ → Prop} (seqnos : t.Seqnos P) (same : SameNodes t t₁)
    (id : ℕ) (ok : ∀ e ∈ changed, P e.seqno) : (t₁.setNode id (.leaf next changed)).Seqnos P := by
  intro id' n stored
  rw [setNode_nodes, same.nodes] at stored
  split_ifs at stored
  · cases stored
    exact ok
  · exact seqnos id' n stored

open Btree.Tree

/-- The bound of a slot is a separator of the tree. -/
theorem Tree.Seqnos.hi {P : ℕ → Prop} (seqnos : t.Seqnos P) {d : ℕ}
    (mem : s ∈ t.level d) {p : Pos κ} (hi : s.hi = p) : ∃ n, p.version = WithTop.some n ∧ P n := by
  induction d generalizing s with
  | zero =>
    obtain rfl := mem_singleton.mp mem
    cases hi
  | succ d ih =>
    rw [level_succ, mem_flatMap] at mem
    obtain ⟨x, xMem, child⟩ := mem
    unfold childSlots at child
    cases stored : t.nodes x.id with
    | none => simp [stored] at child
    | some n =>
      cases n with
      | leaf next entries => simp [stored, Node.slots] at child
      | nonleaf level next keys rightmost =>
        simp only [stored, Node.slots, List.mem_append, List.mem_map, mem_singleton] at child
        rcases child with ⟨k, kMem, rfl⟩ | rfl
        · cases hi
          exact ⟨k.seqno, rfl, seqnos _ _ stored k kMem⟩
        · exact ih xMem hi

theorem btreeLeafUpdateKey_insert (cfg : Config κ) (l r : List (Entry κ)) (e : Entry κ) :
    btreeLeafUpdateKey cfg (l ++ r) e l.length false =
      if cfg.keylen e.key < cfg.maxKeySize ∧
          btreeLeafUsedSpace cfg (l ++ e :: r) ≤ cfg.nodesizeLessHdr then some (l ++ e :: r)
      else none := by
  simp only [btreeLeafUpdateKey, Bool.false_eq_true, if_false, take_left, drop_left]
  split_ifs <;> tauto

theorem btreeLeafUpdateKey_replace (cfg : Config κ) (l r : List (Entry κ)) (old e : Entry κ) :
    btreeLeafUpdateKey cfg (l ++ old :: r) e l.length true =
      if cfg.keylen e.key < cfg.maxKeySize ∧
          btreeLeafUsedSpace cfg (l ++ e :: r) ≤ cfg.nodesizeLessHdr then some (l ++ e :: r)
      else none := by
  have erased : (l ++ old :: r).eraseIdx l.length = l ++ r := by simp [eraseIdx_append]
  simp only [btreeLeafUpdateKey, if_true, erased, take_left, drop_left]
  split_ifs <;> tauto

variable [LinearOrder κ]

section

variable (shape : Shape t h) (cut : t.level h = pre ++ s :: post)
  (stored : t.nodes s.id = some (.leaf next entries))

include shape cut stored

theorem Shape.leaf_between : Between Entry.pos (endOf ⊥ (pre.map t.cell)) s.hi entries := by
  have between := (shape.tiled_cut cut).2.2.1
  simpa only [cell, entriesOf, stored] using between

theorem Shape.setLeaf (same : SameNodes t t₁)
    (between : Between Entry.pos (endOf ⊥ (pre.map t.cell)) s.hi changed) :
    Shape (t₁.setNode s.id (.leaf next changed)) h := by
  have levels : ∀ d, (t₁.setNode s.id (.leaf next changed)).level d = t.level d :=
    setLeaf_level stored same
  have used : ∀ id, (t₁.setNode s.id (.leaf next changed)).nodes id ≠ none ↔ t.nodes id ≠ none := by
    intro id
    rw [setNode_nodes, same.nodes]
    split_ifs with here
    · simp [here, stored]
    · rfl
  have cells : ∀ x ∈ pre ++ post, (t₁.setNode s.id (.leaf next changed)).cell x = t.cell x := by
    intro x mem
    unfold cell
    rw [setLeaf_entriesOf same, if_neg (shape.beside le_rfl cut mem).2]
  refine ⟨?kinds, ?nodup, ?reached, ?ids, ?tiled, ?linked⟩
  case kinds =>
    intro d le x mem
    rw [levels] at mem
    obtain ⟨n, stored', kind⟩ := shape.kinds d le x mem
    rw [setNode_nodes, same.nodes]
    split_ifs with here
    · rw [here, stored] at stored'
      cases stored'
      exact ⟨_, rfl, kind⟩
    · exact ⟨n, stored', kind⟩
  case nodup =>
    intro d le
    rw [levels]
    exact shape.nodup d le
  case reached =>
    intro id isUsed
    obtain ⟨d, le, x, mem, eq⟩ := shape.reached id ((used id).mp isUsed)
    exact ⟨d, le, x, by rw [levels]; exact mem, eq⟩
  case ids =>
    intro id isUsed
    obtain ⟨nonzero, less⟩ := shape.ids id ((used id).mp isUsed)
    exact ⟨nonzero, less.trans_le same.counter_le⟩
  case tiled =>
    obtain ⟨front, start, -, back⟩ := shape.tiled_cut cut
    have here : (t₁.setNode s.id (.leaf next changed)).cell s = ⟨s.hi, changed⟩ := by
      unfold cell
      rw [setLeaf_entriesOf same, if_pos rfl]
    have preCells := map_congr_left fun x mem => cells x (mem_append_left post mem)
    have postCells := map_congr_left fun x mem => cells x (mem_append_right pre mem)
    rw [levels, cut, map_append, map_cons, preCells, postCells, here, tiled_append, tiled_cons]
    exact ⟨front, start, between, back⟩
  case linked =>
    rw [levels]
    apply shape.linked.congr
    intro id mem
    unfold nextOf
    rw [setNode_nodes, same.nodes]
    split_ifs with here
    · rw [here, stored]
    · rfl

end

theorem Shape.leaf_contents (shape : Shape t h) (mem : s ∈ t.level h)
    (stored : t.nodes s.id = some (.leaf next entries)) :
    ∃ before after, t.contents h = before ++ entries ++ after ∧
      (∀ key, Covers (t.level h) ⟨key, ⊤⟩ s → ∀ x ∈ before, x.key < key) ∧
      ∀ t₁ changed, SameNodes t t₁ →
        (t₁.setNode s.id (.leaf next changed)).contents h = before ++ changed ++ after := by
  obtain ⟨pre, post, cut⟩ := append_of_mem mem
  refine ⟨pre.flatMap fun x => entriesOf t.nodes x.id, post.flatMap fun x => entriesOf t.nodes x.id,
    ?_, ?_, ?_⟩
  · have here : entriesOf t.nodes s.id = entries := by simp [entriesOf, stored]
    unfold contents
    rw [cut, flatMap_append, flatMap_cons, here, append_assoc]
  · intro key covers x xMem
    obtain ⟨y, yMem, here⟩ := mem_flatMap.mp xMem
    have ascending := shape.ascending le_rfl
    rw [cut] at ascending covers
    have less : y.hi < s.hi := (pairwise_append.mp ascending).2.2 y yMem s mem_cons_self
    have bound := covers.before ascending (mem_append_left _ yMem) less
    have upto := shape.upto_hi (s := y) (by simp [cut, yMem]) here
    exact lt_top_iff.mp (WithTop.coe_lt_coe.mp (upto.trans_lt bound))
  · intro t₁ changed same
    have others : ∀ x ∈ pre ++ post,
        entriesOf (t₁.setNode s.id (.leaf next changed)).nodes x.id = entriesOf t.nodes x.id := by
      intro x xMem
      rw [setLeaf_entriesOf same, if_neg (shape.beside le_rfl cut xMem).2]
    unfold contents
    rw [setLeaf_level stored same, cut, flatMap_append, flatMap_cons,
      setLeaf_entriesOf same, if_pos rfl, append_assoc,
      flatMap_congr fun x xMem => others x (mem_append_left post xMem),
      flatMap_congr fun x xMem => others x (mem_append_right pre xMem)]

/-! ## Removals -/

variable {cfg : Config κ} {t' : Tree κ} {kept l r : List (Entry κ)} {e : Entry κ} {key : κ}

section

variable {entries' : List (Entry κ)}

omit [LinearOrder κ] in
theorem Removals.sublist (removals : Removals cfg t entries t' kept) : kept.Sublist entries := by
  induction removals with
  | refl => exact List.Sublist.refl _
  | step removal _ _ ih => exact ih.trans removal.sublist

omit [LinearOrder κ] in
theorem Removals.same (removals : Removals cfg t entries t' kept) :
    SameNodes t t' ∧ t'.logical_id_counter = t.logical_id_counter := by
  induction removals with
  | refl => exact ⟨SameNodes.refl _, rfl⟩
  | step _ freed _ ih =>
    obtain ⟨same, counter⟩ := freeEntryData_same freed
    exact ⟨same.trans ih.1, ih.2.trans counter⟩

/-- A removal takes the latest version of a key only when it is the last one. -/
theorem Removal.latest {snapshots : List ℕ} (removal : Removal snapshots entries e entries')
    (sorted : SortedBy Entry.pos entries) (key : κ) :
    latestIn entries' key = latestIn entries key ∨ latestIn entries' key = none := by
  cases removal with
  | shadowed same together =>
    left
    exact (visible_drop_shadowed same fun _ => le_top).symm
  | @expired l r _ b dead other =>
    by_cases here : e.key = key
    · have beyond : ∀ x ∈ b :: r, x.key ≠ key := here ▸ sorted.key_ne_of_next other
      have invisible : visible Entry.pos (b :: r) key ⊤ = none :=
        visible_eq_none.mpr fun x mem same => absurd same (beyond x mem)
      unfold latestIn
      rw [visible_append, visible_append, invisible, visible_cons, if_pos ⟨here, le_top⟩]
      cases visible Entry.pos l key ⊤ <;> simp
    · left
      exact (visible_skip fun same => absurd same here).symm

theorem Removals.latest (removals : Removals cfg t entries t' kept)
    (sorted : SortedBy Entry.pos entries) (key : κ) :
    latestIn kept key = latestIn entries key ∨ latestIn kept key = none := by
  induction removals with
  | refl => exact .inl rfl
  | step removal _ rest ih =>
    rcases ih (sorted.sublist removal.sublist) with same | gone
    · rw [same]
      exact removal.latest sorted key
    · exact .inr gone

end

/-! ## The place of the object -/

theorem exists_place (sorted : SortedBy Entry.pos entries) (key : κ) :
    ∃ l r, entries = l ++ r ∧ (btreeLeafFindKey entries key .any).1 = l.length ∧
      (∀ x ∈ l, x.key < key) ∧ (∀ x ∈ r, key ≤ x.key) ∧
      latestIn entries key = r.head?.filter fun x => decide (x.key = key) := by
  obtain ⟨front, back, rfl, before, after, cut⟩ := sorted.exists_cut (⟨key, ⊤⟩ : Pos κ)
  refine ⟨front, back, rfl, ?_, ?_, ?_, visible_cut sorted before after⟩
  · rw [btreeLeafFindKey_index sorted]
    exact cut
  · exact fun x mem => lt_top_iff.mp (before x mem)
  · exact fun x mem => top_le_iff.mp (after x mem)

theorem btreeLeafFindKey_latest (sorted : SortedBy Entry.pos entries) (key : κ) :
    (btreeLeafFindKey entries key .any).2 = (latestIn entries key).isSome ∧
      ∀ e, latestIn entries key = some e →
        entries[(btreeLeafFindKey entries key .any).1]? = some e :=
  btreeLeafFindKey_reader sorted key ⊤

/-! ## The object goes in -/

/-- The entry of an object. -/
abbrev Obj.entry (cfg : Config κ) (obj : Obj κ) (ptr : ℕ) : Entry κ :=
  Entry.make cfg obj.key obj.seqno obj.tombstone obj.data ptr

/-- What the object makes of the entries of its leaf: it is rejected, inserted
before the versions of its key, or put in the place of the latest one. -/
inductive LeafPut (cfg : Config κ) (obj : Obj κ) : List (Entry κ) → List (Entry κ) → Prop
  | rejected {entries : List (Entry κ)} : LeafPut cfg obj entries entries
  | insert {l r : List (Entry κ)} {ptr : ℕ} (before : ∀ x ∈ l, x.key < obj.key)
      (after : ∀ x ∈ r, obj.key ≤ x.key) :
      LeafPut cfg obj (l ++ r)
        (l ++ Entry.make cfg obj.key obj.seqno obj.tombstone obj.data ptr :: r)
  | replace {l r : List (Entry κ)} {old : Entry κ} {ptr : ℕ} (before : ∀ x ∈ l, x.key < obj.key)
      (same : old.key = obj.key) :
      LeafPut cfg obj (l ++ old :: r)
        (l ++ Entry.make cfg obj.key obj.seqno obj.tombstone obj.data ptr :: r)

variable {obj : Obj κ}

section

variable {lo : WithBot (WithTop (Pos κ))} {hi : WithTop (Pos κ)}

theorem forall_mem_insert {α : Type} {P : α → Prop} {l r : List α} {a : α}
    (others : ∀ x ∈ l ++ r, P x) (new : P a) : ∀ x ∈ l ++ a :: r, P x := by
  obtain ⟨left, right⟩ := forall_mem_append.mp others
  exact forall_mem_append.mpr ⟨left, forall_mem_cons.mpr ⟨new, right⟩⟩

theorem between_insert
    (between : Between Entry.pos lo hi (l ++ r)) (before : ∀ x ∈ l, x.key < e.key)
    (after : ∀ x ∈ r, e.key ≤ x.key) (newest : ∀ x ∈ r, x.seqno < e.seqno)
    (above : lo < ((e.pos : WithTop (Pos κ)) : WithBot (WithTop (Pos κ))))
    (below : (e.pos : WithTop (Pos κ)) ≤ hi) : Between Entry.pos lo hi (l ++ e :: r) := by
  obtain ⟨sortedLeft, sortedRight, across⟩ := sortedBy_append.mp between.sorted
  refine ⟨?_, forall_mem_insert between.above above, forall_mem_insert between.below below⟩
  rw [sortedBy_append, sortedBy_cons]
  refine ⟨sortedLeft, ⟨?_, sortedRight⟩, ?_⟩
  · intro x mem
    rcases (after x mem).lt_or_eq with less | same
    · exact lt_of_key_lt less
    · exact lt_iff.mpr (.inr ⟨same, WithTop.coe_lt_coe.mpr (newest x mem)⟩)
  · intro x xMem
    exact forall_mem_cons.mpr ⟨lt_of_key_lt (before x xMem), across x xMem⟩

/-- The object stays between the bounds of its leaf, when it is newer than
everything there. -/
theorem LeafPut.between (put : LeafPut cfg obj entries changed)
    (between : Between Entry.pos lo hi entries) (newest : ∀ x ∈ entries, x.seqno < obj.seqno)
    (above : lo < (((⟨obj.key, WithTop.some obj.seqno⟩ : Pos κ) : WithTop (Pos κ)) :
      WithBot (WithTop (Pos κ))))
    (below : ((⟨obj.key, WithTop.some obj.seqno⟩ : Pos κ) : WithTop (Pos κ)) ≤ hi) :
    Between Entry.pos lo hi changed := by
  cases put with
  | rejected => exact between
  | insert before after =>
    exact between_insert between before after
      (fun x mem => newest x (mem_append_right _ mem)) above below
  | @replace l r old ptr before same =>
    have fewer : (l ++ r).Sublist (l ++ old :: r) := (sublist_cons_self _ _).append_left _
    have sortedRight := (sortedBy_append.mp between.sorted).2.1
    have after : ∀ x ∈ r, obj.key ≤ x.key := fun x mem =>
      same ▸ key_le_of_le ((sortedBy_cons.mp sortedRight).1 x mem).le
    exact between_insert (between.sublist fewer) before after
      (fun x mem => newest x (fewer.subset (mem_append_right _ mem))) above below

/-- What holds of the entries of the leaf and of the object holds afterwards. -/
theorem LeafPut.forall_mem {P : Entry κ → Prop} (put : LeafPut cfg obj entries changed)
    (old : ∀ x ∈ entries, P x) (new : ∀ ptr, P (obj.entry cfg ptr)) : ∀ x ∈ changed, P x := by
  cases put with
  | rejected => exact old
  | insert => exact forall_mem_insert old (new _)
  | @replace l r gone =>
    have fewer := (sublist_cons_self gone r).append_left l
    exact forall_mem_insert (fun x mem => old x (fewer.subset mem)) (new _)

theorem LeafPut.seqnos {P : ℕ → Prop} (put : LeafPut cfg obj entries changed)
    (old : ∀ x ∈ entries, P x.seqno) (new : P obj.seqno) : ∀ x ∈ changed, P x.seqno :=
  put.forall_mem old fun _ => new

/-- A place of a key lies above the leaves before the key's leaf. -/
theorem endOf_lt_of_covers (seqno : ℕ)
    (ascending : Ascending (pre ++ s :: post)) (covers : Covers (pre ++ s :: post) ⟨key, ⊤⟩ s) :
    endOf ⊥ (pre.map t.cell) < (((⟨key, WithTop.some seqno⟩ : Pos κ) : WithTop (Pos κ)) :
      WithBot (WithTop (Pos κ))) := by
  rcases eq_nil_or_concat pre with rfl | ⟨front, last, rfl⟩
  · exact WithBot.bot_lt_coe _
  · rw [concat_eq_append] at ascending covers ⊢
    rw [map_append, map_singleton, endOf_append_singleton, WithBot.coe_lt_coe]
    have less : last.hi < s.hi := (pairwise_append.mp ascending).2.2 last (by simp) s
      mem_cons_self
    have before := covers.before ascending (by simp) less
    obtain ⟨p, hi, lt⟩ := WithTop.lt_iff_exists_coe.mp before
    have bound : (t.cell last).hi = (p : WithTop (Pos κ)) := hi
    rw [bound, WithTop.coe_lt_coe]
    exact lt_of_key_lt (lt_top_iff.mp (WithTop.coe_lt_coe.mp lt))

/-- A newer version of a key lies not above the bound of the key's leaf. -/
theorem le_hi_of_covers {d last seqno : ℕ} (recent : t.Seqnos (· ≤ last))
    (fresh : last < seqno) (covers : Covers (t.level d) ⟨key, ⊤⟩ s) :
    ((⟨key, WithTop.some seqno⟩ : Pos κ) : WithTop (Pos κ)) ≤ s.hi := by
  have upto := covers.upto
  cases hi : s.hi using WithTop.recTopCoe with
  | top => exact le_top
  | coe p =>
    obtain ⟨n, version, le⟩ := recent.hi covers.mem hi
    rw [hi, WithTop.coe_le_coe] at upto
    rw [WithTop.coe_le_coe, le_iff]
    rcases (top_le_iff.mp upto).lt_or_eq with less | same
    · exact .inl less
    · refine .inr ⟨same, ?_⟩
      rw [version]
      exact WithTop.coe_le_coe.mpr (le.trans fresh.le)

theorem LeafOf.put_shape {last : ℕ} (shape : Shape t h) (recent : t.Seqnos (· ≤ last))
    (fresh : last < obj.seqno) (covers : Covers (t.level h) ⟨obj.key, ⊤⟩ s)
    (stored : t.nodes s.id = some (.leaf next entries)) (same : SameNodes t t')
    (put : LeafPut cfg obj entries changed) : Shape (t'.setNode s.id (.leaf next changed)) h := by
  have ascending := shape.ascending le_rfl
  have ⟨pre, post, cut, _⟩ := covers
  apply shape.setLeaf cut stored same
  apply put.between (shape.leaf_between cut stored)
  · exact fun x mem => (recent _ _ stored x mem).trans_lt fresh
  · exact endOf_lt_of_covers _ (cut ▸ ascending) (cut ▸ covers)
  · exact le_hi_of_covers recent fresh covers

end

/-! ## The end of a write -/

variable {write_type : WriteType} {id : ℕ} {is_update : Bool}

/-- Whether a key is there, for `btree_insert_keys_leaf`: its latest version is
not a tombstone. -/
theorem key_exists_eq (sorted : SortedBy Entry.pos entries) (key : κ) :
    ((btreeLeafFindKey entries key .any).2 &&
        !btreeLeafIsKeyTombstoned entries (btreeLeafFindKey entries key .any).1) =
      (latestIn entries key).any fun e => !e.tombstone := by
  obtain ⟨found, index⟩ := btreeLeafFindKey_latest sorted key
  rw [found]
  cases latest : latestIn entries key with
  | none => rfl
  | some e => simp [btreeLeafIsKeyTombstoned, index e latest]

/-- Whether the object replaces the version found, in terms of the latest one. -/
theorem isUpdate_eq (t : Tree κ) (obj : Obj κ) (sorted : SortedBy Entry.pos entries) :
    isUpdate t obj entries (btreeLeafFindKey entries obj.key .any).1
        (btreeLeafFindKey entries obj.key .any).2 = (latestIn entries obj.key).any fun e =>
        !obj.tombstone && decide (btreeSnapFindMetaIndex t.snapshots e.seqno = none) := by
  obtain ⟨found, index⟩ := btreeLeafFindKey_latest sorted obj.key
  rw [isUpdate, found]
  cases latest : latestIn entries obj.key with
  | none => rfl
  | some e => simp [isLeafKeyActive, index e latest]

/-- The end of a write: the scavenger runs over the leaf, and the object's place
is looked for in what it leaves. -/
theorem finishWrite_eq (stored : t.nodes id = some (.leaf next entries))
    (sorted : SortedBy Entry.pos entries)
    (update : is_update = true → (latestIn entries obj.key).isSome = true) :
    finishWrite cfg t obj write_type id (btreeLeafFindKey entries obj.key .any).1
        (btreeLeafFindKey entries obj.key .any).2 is_update =
      (scavengeNode cfg t entries).bind fun result =>
        insertKeysLeaf cfg result.1 obj write_type id next result.2.1
          (btreeLeafFindKey result.2.1 obj.key .any).1
          ((latestIn result.2.1 obj.key).any fun e => !e.tombstone)
          (is_update && (latestIn result.2.1 obj.key).isSome) := by
  have outcome := scavengeNode_outcome cfg t sorted
  simp only [finishWrite, stored, bind_eq_bind]
  generalize scavengeNode cfg t entries = result at outcome
  cases outcome with
  | failed => rfl
  | @done t₁ kept n removals more unchanged =>
    have sortedKept := sorted.sublist removals.sublist
    simp only [bind_some]
    split_ifs with zero
    · obtain ⟨rfl, rfl⟩ := unchanged zero
      rw [key_exists_eq sortedKept]
      congr 1
      cases is_update with
      | false => rfl
      | true => simp [update rfl]
    · rw [key_exists_eq sortedKept, (btreeLeafFindKey_latest sortedKept obj.key).1]

/-- An update at the place of the object's key puts the object in the leaf, before
the other versions of its key. -/
theorem btreeLeafUpdateKey_put (obj : Obj κ) {ptr : ℕ} (sorted : SortedBy Entry.pos kept)
    (update : is_update = true → (latestIn kept obj.key).isSome = true)
    (updated : btreeLeafUpdateKey cfg kept (obj.entry cfg ptr)
      (btreeLeafFindKey kept obj.key .any).1 is_update = some changed) :
    LeafPut cfg obj kept changed ∧ latestIn changed obj.key = some (obj.entry cfg ptr) := by
  obtain ⟨l, r, rfl, index, before, after, latest⟩ := exists_place sorted obj.key
  have first : ∀ r', latestIn (l ++ obj.entry cfg ptr :: r') obj.key = some (obj.entry cfg ptr) :=
    fun r' => visible_insert (fun x mem => (before x mem).ne) le_top
  rw [index] at updated
  cases is_update with
  | false =>
    rw [btreeLeafUpdateKey_insert] at updated
    split_ifs at updated
    cases updated
    exact ⟨.insert before after, first r⟩
  | true =>
    have present := update rfl
    rw [latest] at present
    cases r with
    | nil => simp at present
    | cons old r =>
      have same' : old.key = obj.key := by simpa [isSome_filter] using present
      rw [btreeLeafUpdateKey_replace] at updated
      split_ifs at updated
      cases updated
      exact ⟨.replace before same', first r⟩

end Zetascale.Btree
