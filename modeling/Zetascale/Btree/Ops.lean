import Zetascale.Btree.Update

/-!
# Writes and deletes

A write that may be made runs through: its descent does not get stuck, starts
again only finitely often, and the object fits in the leaf at which it arrives.
The condition that is not about the object alone is `SplitFits`: the loop that
splits a full leaf asks whether the object fits as an update, also when it is
going to be a new version.
-/

namespace Zetascale.Btree

open List Option

variable {κ : Type}

theorem length_le_usedSpace (cfg : Config κ) (entries : List (Entry κ)) :
    entries.length ≤ btreeLeafUsedSpace cfg entries := by
  induction entries with
  | nil => exact le_rfl
  | cons e rest ih =>
    have size := entrySize_pos cfg (cfg.keylen e.key) e.datalen
    rw [length_cons, btreeLeafUsedSpace_cons, Entry.size]
    omega

variable [LinearOrder κ]

/-! ## Room in the leaf -/

/-- When a new version of a key that is there goes to a full leaf, it fits in
its half of the leaf. -/
def SplitFits (cfg : Config κ) (t : Tree κ) (obj : Obj κ) (entries : List (Entry κ)) : Prop :=
  (btreeLeafFindKey entries obj.key .any).2 = true →
  isUpdate t obj entries (btreeLeafFindKey entries obj.key .any).1
    (btreeLeafFindKey entries obj.key .any).2 = false →
  btreeLeafIsFullIndex cfg entries obj.key obj.data.length false
    (btreeLeafFindKey entries obj.key .any).1 = true →
  btreeLeafIsFullIndex cfg (halfFor cfg entries obj.key) obj.key obj.data.length false
    (btreeLeafFindKey (halfFor cfg entries obj.key) obj.key .any).1 = false

instance (cfg : Config κ) (t : Tree κ) (obj : Obj κ) (entries : List (Entry κ)) :
    Decidable (SplitFits cfg t obj entries) :=
  inferInstanceAs (Decidable (_ → _ → _ → _))

/-- The object fits in the leaf, as a new version or in the place of the latest
one. -/
structure Room (cfg : Config κ) (obj : Obj κ) (entries : List (Entry κ)) (is_update : Bool) :
    Prop where
  insert : is_update = false → btreeLeafUsedSpace cfg entries +
    entrySize cfg (cfg.keylen obj.key) obj.data.length ≤ cfg.nodesizeLessHdr
  replace : is_update = true → ∀ old, latestIn entries obj.key = some old →
    btreeLeafUsedSpace cfg entries + entrySize cfg (cfg.keylen obj.key) obj.data.length ≤
      cfg.nodesizeLessHdr + old.size cfg

variable {cfg : Config κ} {obj : Obj κ} {entries : List (Entry κ)} {key : κ} {is_update : Bool}
  {t : Tree κ}

section

variable {datalen index : ℕ}

omit [LinearOrder κ] in
theorem room_of_insert (notFull : btreeLeafIsFullIndex cfg entries key datalen false index = false) :
    btreeLeafUsedSpace cfg entries + entrySize cfg (cfg.keylen key) datalen ≤
      cfg.nodesizeLessHdr := by
  simp only [btreeLeafIsFullIndex, Bool.false_eq_true, if_false] at notFull
  split_ifs at notFull with early
  · have metaLe := (getKeyMetaType (cfg.keylen key) datalen).size_le
    simp only [maxMetaSize, entrySize, keyMetaSpaceUsed] at early ⊢
    omega
  · rw [decide_eq_false_iff_not, not_lt] at notFull
    exact notFull

omit [LinearOrder κ] in
theorem room_of_update {old : Entry κ}
    (notFull : btreeLeafIsFullIndex cfg entries key datalen true index = false)
    (there : entries[index]? = some old) (same : old.key = key) :
    btreeLeafUsedSpace cfg entries + entrySize cfg (cfg.keylen key) datalen ≤
      cfg.nodesizeLessHdr + old.size cfg := by
  have inside : index < entries.length := (List.getElem?_eq_some_iff.mp there).1
  simp only [btreeLeafIsFullIndex, if_true, there] at notFull
  rw [if_neg (by omega), decide_eq_false_iff_not, not_lt, updateBytesNeeded] at notFull
  simp only [Entry.size, entrySize, keyMetaSpaceUsed, same]
  omega

omit [LinearOrder κ] in
/-- What fits as a new version fits as an update. -/
theorem isFullIndex_mono (key_exists : Bool)
    (notFull : btreeLeafIsFullIndex cfg entries key datalen false index = false) :
    btreeLeafIsFullIndex cfg entries key datalen key_exists index = false := by
  have room := room_of_insert notFull
  cases key_exists with
  | false => exact notFull
  | true =>
    simp only [btreeLeafIsFullIndex, if_true]
    split_ifs with early
    · rfl
    · rw [decide_eq_false_iff_not, not_lt]
      cases entries[index]? with
      | none => exact (Nat.le_add_right _ _).trans room
      | some old =>
        exact (Nat.add_le_add_left (updateBytesNeeded_le ..) _).trans room

theorem Room.of_notFull (sorted : SortedBy Entry.pos entries)
    (update : is_update = true → (latestIn entries obj.key).isSome = true)
    (notFull : btreeLeafIsFullIndex cfg entries obj.key obj.data.length is_update
      (btreeLeafFindKey entries obj.key .any).1 = false) : Room cfg obj entries is_update := by
  constructor
  · rintro rfl
    exact room_of_insert notFull
  · rintro rfl old latest
    have there := (btreeLeafFindKey_latest sorted obj.key).2 old latest
    exact room_of_update notFull there (visible_some latest).2.1

/-- The scavenger only makes more room. -/
theorem Room.removals {t₁ : Tree κ} {kept : List (Entry κ)}
    (room : Room cfg obj entries is_update) (removals : Removals cfg t entries t₁ kept)
    (sorted : SortedBy Entry.pos entries)
    (update : is_update = true → (latestIn entries obj.key).isSome = true) :
    Room cfg obj kept (is_update && (latestIn kept obj.key).isSome) := by
  have fewer := removals.sublist
  have used := btreeLeafUsedSpace_sublist cfg fewer
  cases is_update with
  | false => exact ⟨fun _ => (Nat.add_le_add_right used _).trans (room.insert rfl), by simp⟩
  | true =>
    obtain ⟨old, latest⟩ := isSome_iff_exists.mp (update rfl)
    have whole := room.replace rfl old latest
    rcases removals.latest sorted obj.key with same | gone
    · rw [same, latest]
      refine ⟨by simp, fun _ old' latest' => ?_⟩
      rw [same, latest] at latest'
      cases latest'
      omega
    · -- the latest version was itself removed, so its bytes are free
      rw [gone]
      refine ⟨fun _ => ?_, by simp⟩
      obtain ⟨mem, sameKey, -⟩ := visible_some latest
      have notKept : old ∉ kept := fun here =>
        visible_eq_none.mp gone old here sameKey le_top
      obtain ⟨l, r, rfl⟩ := append_of_mem mem
      have apart : kept.Sublist (l ++ r) := by
        obtain ⟨kl, kr, rfl, left, right⟩ := sublist_append_iff.mp fewer
        rcases sublist_cons_iff.mp right with later | ⟨rest, rfl, -⟩
        · exact left.append later
        · exact absurd (by simp) notKept
      have less := btreeLeafUsedSpace_sublist cfg apart
      simp only [btreeLeafUsedSpace_append, btreeLeafUsedSpace_cons] at whole less ⊢
      omega

end

/-! ## The end of a write -/

/-- Whether a write is made, by its type and whether the key is there. -/
def WriteType.accepts : WriteType → Bool → Bool
  | .set, _ => true
  | .create, present => !present
  | .update, present => present

theorem WriteType.accepts_eq_false (write_type : WriteType) (present : Bool) :
    write_type.accepts present = false ↔
      write_type = .update ∧ present = false ∨ write_type = .create ∧ present = true := by
  cases write_type <;> cases present <;> decide

/-- The status of a write. -/
def writeStatus (accepted : Bool) : Status := if accepted then .success else .keyNotFound

/-- What a write that may be rejected does to the versions. -/
def Outcome (snapshots : List ℕ) (obj : Obj κ) (accepted : Bool)
    (versions versions' : List (Entry κ × Data)) : Prop :=
  if accepted then Written snapshots obj versions versions'
  else SameValues snapshots versions versions'

/-- A write or a delete runs through, and its status says whether it was
accepted. -/
def Answers (cfg : Config κ) (obj : Obj κ) (snapshots : List ℕ) (accepted : Bool)
    (versions : List (Entry κ × Data)) (result : Option (Tree κ × Status)) : Prop :=
  ∃ t' h' versions', result = some (t', writeStatus accepted) ∧
    Inv cfg t' h' obj.seqno versions' ∧ t'.snapshots = snapshots ∧
    Outcome snapshots obj accepted versions versions'

variable {write_type : WriteType} {h last : ℕ} {s : Slot (Pos κ)} {versions : List (Entry κ × Data)}

section

variable {versions' versions'' : List (Entry κ × Data)} {snapshots : List ℕ}

theorem Inv.mono {last' : ℕ} (inv : Inv cfg t h last versions) (le : last ≤ last') :
    Inv cfg t h last' versions where
  __ := inv
  seqnos := inv.seqnos.imp fun _ both => ⟨both.1, both.2.trans le⟩
  bounded := fun n mem => (inv.bounded n mem).trans le

theorem Outcome.after {accepted : Bool} (same : SameValues snapshots versions versions')
    (outcome : Outcome snapshots obj accepted versions' versions'') :
    Outcome snapshots obj accepted versions versions'' := by
  unfold Outcome at outcome ⊢
  split_ifs at outcome ⊢
  · constructor
    · intro n mem key
      rw [outcome.snapshots n mem, same _ (.inr ⟨n, mem, rfl⟩)]
    · intro key
      rw [outcome.active, same _ (.inl rfl)]
  · intro bound reader key
    rw [outcome bound reader key, same bound reader key]

theorem Inv.leaf_sorted (inv : Inv cfg t h last versions)
    (leaf : LeafOf t h key s entries) : SortedBy Entry.pos entries := by
  obtain ⟨covers, next, stored⟩ := leaf
  exact inv.shape.leaf_sorted covers.mem stored

/-- A key is there when its latest version in its leaf is not a tombstone. -/
theorem Inv.present (inv : Inv cfg t h last versions) (leaf : LeafOf t h key s entries) :
    ((latestIn entries key).any fun e => !e.tombstone) = (valueAt versions key ⊤).isSome := by
  obtain ⟨covers, next, stored⟩ := leaf
  have here : entriesOf t.nodes s.id = entries := by simp [entriesOf, stored]
  have seen := inv.visible_leaf (.inl rfl) covers
  have whole := visible_map_fst versions key ⊤
  rw [inv.contents, seen, here] at whole
  rw [latestIn, ← whole, valueAt, lookup]
  cases visible posOf versions key ⊤ with
  | none => rfl
  | some v =>
    simp only [map_some, any_some, bind_some, valueOf]
    cases v.1.tombstone <;> rfl

/-- The end of a write: it is rejected, or the object is stored. -/
theorem Inv.finish (inv : Inv cfg t h last versions) (leaf : LeafOf t h obj.key s entries)
    (fresh : last < obj.seqno) (update : is_update = (latestIn entries obj.key).any fun e =>
      !obj.tombstone && decide (btreeSnapFindMetaIndex t.snapshots e.seqno = none))
    (short : cfg.Unwrapped (cfg.keylen obj.key) obj.data.length)
    (may : write_type.accepts (valueAt versions obj.key ⊤).isSome = true →
      cfg.keylen obj.key < cfg.maxKeySize ∧
      cfg.Writable (cfg.keylen obj.key) obj.data.length ∧ Room cfg obj entries is_update) :
    Answers cfg obj t.snapshots (write_type.accepts (valueAt versions obj.key ⊤).isSome) versions
      (finishWrite cfg t obj write_type s.id (btreeLeafFindKey entries obj.key .any).1
        (btreeLeafFindKey entries obj.key .any).2 is_update) := by
  have ⟨covers, next, stored⟩ := leaf
  have sorted := inv.leaf_sorted leaf
  have found : is_update = true → (latestIn entries obj.key).isSome = true := by
    intro yes
    rw [yes] at update
    cases latest : latestIn entries obj.key with
    | none => simp [latest] at update
    | some e => rfl
  obtain ⟨t₁, kept, n, versions₁, ran, removals, ⟨inv₁, mem₁⟩, values⟩ :=
    inv.scavenge covers.mem stored
  rw [finishWrite_eq stored sorted found, ran, bind_some]
  have same₁ := removals.same.1
  have level₁ : (t₁.setNode s.id (.leaf next kept)).level h = t.level h :=
    setLeaf_level stored same₁ h
  have covers₁ : Covers ((t₁.setNode s.id (.leaf next kept)).level h) ⟨obj.key, ⊤⟩ s :=
    level₁.symm ▸ covers
  have leaf₁ : LeafOf (t₁.setNode s.id (.leaf next kept)) h obj.key s kept :=
    ⟨covers₁, next, setNode_stored ..⟩
  have present := inv₁.present leaf₁
  rw [values ⊤ (.inl rfl)] at present
  simp only [present, insertKeysLeaf, ← WriteType.accepts_eq_false]
  generalize write_type.accepts (valueAt versions obj.key ⊤).isSome = accepted at may ⊢
  cases accepted with
  | false =>
    exact ⟨_, h, versions₁, rfl, inv₁.mono fresh.le, same₁.snapshots, values⟩
  | true =>
    obtain ⟨small, writable, room⟩ := may rfl
    have room₁ := room.removals removals sorted found
    cases flag : is_update && (latestIn kept obj.key).isSome with
    | false =>
      rw [flag] at room₁
      obtain ⟨t₂, changed, versions₂, inserted, same₂, inv₂, written⟩ :=
        inv₁.insert covers₁ fresh short small writable (room₁.insert rfl)
      rw [inserted]
      refine ⟨_, h, versions₂, rfl, inv₂, same₂.snapshots.trans same₁.snapshots, ?_⟩
      apply Outcome.after values
      rw [← same₁.snapshots]
      exact written
    | true =>
      rw [flag] at room₁
      obtain ⟨isUpdate', isSome⟩ := Bool.and_eq_true_iff.mp flag
      obtain ⟨old, latest⟩ := isSome_iff_exists.mp isSome
      have active : btreeSnapFindMetaIndex t₁.snapshots old.seqno = none := by
        rcases removals.latest sorted obj.key with same | gone
        · rw [isUpdate', ← same, latest] at update
          have both := Bool.and_eq_true_iff.mp update.symm
          rw [same₁.snapshots]
          exact of_decide_eq_true both.2
        · cases latest.symm.trans gone
      obtain ⟨t₂, changed, versions₂, inserted, same₂, inv₂, written⟩ :=
        inv₁.replace covers₁ fresh short small writable latest active (room₁.replace rfl old latest)
      rw [inserted]
      refine ⟨_, h, versions₂, rfl, inv₂, same₂.snapshots.trans same₁.snapshots, ?_⟩
      apply Outcome.after values
      rw [← same₁.snapshots]
      exact written

end

/-! ## Whole writes -/

section

variable {entries' : List (Entry κ)}

/-- If a new version of a key that is there fits in its half of the leaf, the
leaf is split once. -/
theorem SplitFits.once (fits : SplitFits cfg t obj entries)
    (found : (btreeLeafFindKey entries obj.key .any).2 = true)
    (update : isUpdate t obj entries (btreeLeafFindKey entries obj.key .any).1
      (btreeLeafFindKey entries obj.key .any).2 = false)
    (full : btreeLeafIsFullIndex cfg entries obj.key obj.data.length false
      (btreeLeafFindKey entries obj.key .any).1 = true) :
    needsSplit cfg obj (halfFor cfg entries obj.key) = false :=
  isFullIndex_mono _ (fits found update full)

/-- The leaf at which the loop ends has room for the object, if one more version fits
where the object is a new version of a key that is there. -/
theorem Room.of_split (sorted : SortedBy Entry.pos entries)
    (found : is_update = true → (latestIn entries obj.key).isSome = true)
    (notFull : needsSplit cfg obj entries = false)
    (newVersion : (latestIn entries obj.key).isSome = true → is_update = false →
      btreeLeafIsFullIndex cfg entries obj.key obj.data.length false
        (btreeLeafFindKey entries obj.key .any).1 = false) : Room cfg obj entries is_update := by
  unfold needsSplit at notFull
  rw [(btreeLeafFindKey_latest sorted obj.key).1] at notFull
  cases is_update with
  | true =>
    rw [found rfl] at notFull
    exact .of_notFull sorted found notFull
  | false =>
    cases present : (latestIn entries obj.key).isSome with
    | false =>
      rw [present] at notFull
      exact .of_notFull sorted found notFull
    | true => exact .of_notFull sorted (by simp) (newVersion present rfl)

/-- The leaf at which a descent arrives has room for the object. -/
theorem Room.of_descent (sorted : SortedBy Entry.pos entries)
    (sorted' : SortedBy Entry.pos entries')
    (latest : latestIn entries' obj.key = latestIn entries obj.key)
    (update : is_update = isUpdate t obj entries (btreeLeafFindKey entries obj.key .any).1
      (btreeLeafFindKey entries obj.key .any).2)
    (room : btreeLeafIsFullIndex cfg entries' obj.key obj.data.length is_update
        (btreeLeafFindKey entries' obj.key .any).1 = false ∨
      btreeLeafIsFullIndex cfg entries obj.key obj.data.length is_update
          (btreeLeafFindKey entries obj.key .any).1 = true ∧ needsSplit cfg obj entries' = false ∧
        (needsSplit cfg obj (halfFor cfg entries obj.key) = false →
          entries' = halfFor cfg entries obj.key))
    (fits : SplitFits cfg t obj entries) : Room cfg obj entries' is_update := by
  have found : is_update = true → (latestIn entries' obj.key).isSome = true := by
    intro yes
    rw [yes, isUpdate_eq t obj sorted] at update
    rw [latest]
    cases latest' : latestIn entries obj.key with
    | none => simp [latest'] at update
    | some e => rfl
  rcases room with notFull | ⟨full, notFull, once⟩
  · exact .of_notFull sorted' found notFull
  · refine .of_split sorted' found notFull fun present notUpdate => ?_
    -- the loop has asked whether the object fits as an update
    have present' : (btreeLeafFindKey entries obj.key .any).2 = true := by
      rw [(btreeLeafFindKey_latest sorted obj.key).1, ← latest]
      exact present
    rw [notUpdate] at update full
    have half := fits present' update.symm full
    obtain rfl := once (fits.once present' update.symm full)
    exact half

theorem Inv.passes (inv : Inv cfg t h last versions) (leaf : LeafOf t h obj.key s entries)
    (fresh : last < obj.seqno) (short : cfg.Unwrapped (cfg.keylen obj.key) obj.data.length)
    (may : write_type.accepts (valueAt versions obj.key ⊤).isSome = true →
      cfg.keylen obj.key < cfg.maxKeySize ∧
      cfg.Writable (cfg.keylen obj.key) obj.data.length ∧ SplitFits cfg t obj entries)
    {fuel : ℕ} (enough : entries.length < fuel) :
    Answers cfg obj t.snapshots (write_type.accepts (valueAt versions obj.key ⊤).isSome) versions
      (mwritePasses cfg obj write_type fuel t) := by
  induction fuel generalizing t h s entries with
  | zero => omega
  | succ fuel ih =>
    have sorted := inv.leaf_sorted leaf
    have atRoot : NodeAt cfg (t.Roomy cfg) t obj.key 0 none ⟨t.rootid, ⊤⟩ := .root
    have outcome := atRoot.descend_outcome inv.shape inv.positive id (Nat.zero_le h) leaf
      inv.shape.depth_lt
    rw [mwritePasses]
    generalize descend cfg obj (t.rootLevel + 1) t none t.rootid = result at outcome
    cases outcome with
    | stuck never => exact absurd short (never inv.roomy)
    | @leaf t₁ h₁ s₁ entries₁ is_update changes leaf₁ latest update room =>
      have inv₁ := inv.reshape changes
      have sorted₁ := inv₁.leaf_sorted leaf₁
      have update₁ : is_update = (latestIn entries₁ obj.key).any fun e => !obj.tombstone &&
          decide (btreeSnapFindMetaIndex t₁.snapshots e.seqno = none) := by
        rw [update, isUpdate_eq t obj sorted, latest, changes.snapshots]
      rw [← changes.snapshots]
      exact inv₁.finish leaf₁ fresh update₁ short fun accepted =>
        ⟨(may accepted).1, (may accepted).2.1,
          .of_descent sorted sorted₁ latest update room (may accepted).2.2⟩
    | @restart t₁ h₁ s₁ entries₁ changes leaf₁ latest full progress =>
      have inv₁ := inv.reshape changes
      have sorted₁ := inv₁.leaf_sorted leaf₁
      obtain ⟨shorter, again⟩ := progress inv.roomy
      have may₁ : write_type.accepts (valueAt versions obj.key ⊤).isSome = true →
          cfg.keylen obj.key < cfg.maxKeySize ∧
          cfg.Writable (cfg.keylen obj.key) obj.data.length ∧ SplitFits cfg t₁ obj entries₁ := by
        intro accepted
        obtain ⟨small, writable, fits⟩ := may accepted
        refine ⟨small, writable, fun found notUpdate _ => ?_⟩
        -- otherwise the first pass would not have started again
        have found' : (btreeLeafFindKey entries obj.key .any).2 = true := by
          rw [(btreeLeafFindKey_latest sorted obj.key).1, ← latest,
            ← (btreeLeafFindKey_latest sorted₁ obj.key).1]
          exact found
        rw [isUpdate_eq t₁ obj sorted₁, latest, changes.snapshots, ← isUpdate_eq t obj sorted]
          at notUpdate
        rw [notUpdate] at full
        rw [fits.once found' notUpdate full] at again
        cases again
      rw [← changes.snapshots]
      exact ih inv₁ leaf₁ may₁ (by omega)

end

/-! ## The operations -/

/-- The entries of the leaf to which the search for a key leads. -/
def leafFor (t : Tree κ) (key : κ) : List (Entry κ) :=
  match findLeaf t key .any (t.rootLevel + 1) t.rootid with
  | some id => entriesOf t.nodes id
  | none => []

/-- Whether a key is there: its latest version is not a tombstone. -/
def keyPresent (t : Tree κ) (key : κ) : Bool :=
  (btreeLeafFindKey (leafFor t key) key .any).2 &&
    !btreeLeafIsKeyTombstoned (leafFor t key) (btreeLeafFindKey (leafFor t key) key .any).1

/-- What a write needs: the key is short, and if the object is going to be
stored, its key and data can be, and it fits in its half of a full leaf. -/
def MayWrite (cfg : Config κ) (t : Tree κ) (obj : Obj κ) (write_type : WriteType) : Prop :=
  cfg.Unwrapped (cfg.keylen obj.key) obj.data.length ∧
    (write_type.accepts (keyPresent t obj.key) = true →
      cfg.keylen obj.key < cfg.maxKeySize ∧
      cfg.Writable (cfg.keylen obj.key) obj.data.length ∧
      SplitFits cfg t obj (leafFor t obj.key))

instance (cfg : Config κ) (t : Tree κ) (obj : Obj κ) (write_type : WriteType) :
    Decidable (MayWrite cfg t obj write_type) :=
  inferInstanceAs (Decidable (_ ∧ (_ → _ ∧ _ ∧ _)))

/-- The tombstone of a key. -/
abbrev tombstoneOf (key : κ) (seqno : ℕ) : Obj κ := ⟨key, [], seqno, true⟩

/-- What a delete needs: the tombstone of a key that is there can be stored, and
fits in its half of a full leaf. -/
def MayDelete (cfg : Config κ) (t : Tree κ) (key : κ) (seqno : ℕ) : Prop :=
  keyPresent t key = true →
    cfg.Writable (cfg.keylen key) 0 ∧ SplitFits cfg t (tombstoneOf key seqno) (leafFor t key)

instance (cfg : Config κ) (t : Tree κ) (key : κ) (seqno : ℕ) :
    Decidable (MayDelete cfg t key seqno) :=
  inferInstanceAs (Decidable (_ → _ ∧ _))

theorem Inv.leafFor (inv : Inv cfg t h last versions) (key : κ) :
    ∃ s, findLeaf t key .any (t.rootLevel + 1) t.rootid = some s.id ∧
      LeafOf t h key s (Btree.leafFor t key) := by
  obtain ⟨s, found, covers⟩ := inv.shape.findLeaf_root key .any
  obtain ⟨next, entries, stored⟩ := inv.shape.leaf covers.mem
  have here : Btree.leafFor t key = entries := by
    simp [Btree.leafFor, found, entriesOf, stored]
  exact ⟨s, found, covers, next, here ▸ stored⟩

theorem Inv.keyPresent_eq (inv : Inv cfg t h last versions) (key : κ) :
    keyPresent t key = (valueAt versions key ⊤).isSome := by
  obtain ⟨s, -, leaf⟩ := inv.leafFor key
  rw [← inv.present leaf, ← key_exists_eq (inv.leaf_sorted leaf)]
  rfl

/-- `btree_raw_write` does what its type says, and only the readers of the
active container notice. -/
theorem Inv.write (inv : Inv cfg t h last versions)
    (fresh : last < obj.seqno) (may : MayWrite cfg t obj write_type) :
    Answers cfg obj t.snapshots (write_type.accepts (valueAt versions obj.key ⊤).isSome) versions
      (btreeRawWrite cfg t obj write_type) := by
  obtain ⟨s, -, leaf⟩ := inv.leafFor obj.key
  obtain ⟨short, rest⟩ := may
  rw [inv.keyPresent_eq] at rest
  have ⟨_, next, stored⟩ := leaf
  have used := (inv.roomy.fits _ _ stored).1
  have lengths := length_le_usedSpace cfg (Btree.leafFor t obj.key)
  exact inv.passes leaf fresh short rest (by omega)

/-- A tombstone that fits in the leaf is put there as a write would do it. -/
theorem delete_in_leaf {seqno id next : ℕ}
    (stored : t.nodes id = some (.leaf next entries)) (sorted : SortedBy Entry.pos entries) :
    ((scavengeNode cfg t entries).bind fun result =>
      insertKeysLeaf cfg result.1 (tombstoneOf key seqno) .set id next result.2.1
        (if result.2.2 = 0 then (btreeLeafFindKey entries key .any).1
          else (btreeLeafFindKey result.2.1 key .any).1) (!btreeLeafIsKeyTombstoned result.2.1
          (if result.2.2 = 0 then (btreeLeafFindKey entries key .any).1
            else (btreeLeafFindKey result.2.1 key .any).1)) false) =
      finishWrite cfg t (tombstoneOf key seqno) .set id (btreeLeafFindKey entries key .any).1
        (btreeLeafFindKey entries key .any).2 false := by
  have outcome := scavengeNode_outcome cfg t sorted
  rw [finishWrite_eq stored sorted (by simp)]
  generalize scavengeNode cfg t entries = result at outcome
  cases outcome with
  | failed => rfl
  | @done t₁ kept n removals more unchanged =>
    have index : (if n = 0 then (btreeLeafFindKey entries key .any).1
        else (btreeLeafFindKey kept key .any).1) = (btreeLeafFindKey kept key .any).1 := by
      split_ifs with zero
      · rw [(unchanged zero).2]
      · rfl
    simp [index, insertKeysLeaf]

/-- `btree_raw_delete` hides a key that is there from the readers of the active
container. -/
theorem Inv.delete (inv : Inv cfg t h last versions) {seqno : ℕ}
    (fresh : last < seqno) (may : MayDelete cfg t key seqno) :
    Answers cfg (tombstoneOf key seqno) t.snapshots (valueAt versions key ⊤).isSome versions
      (btreeRawDelete cfg t key seqno) := by
  obtain ⟨s, found, leaf⟩ := inv.leafFor key
  have ⟨covers, next, stored⟩ := leaf
  have sorted := inv.leaf_sorted leaf
  have present := inv.keyPresent_eq key
  simp only [btreeRawDelete, found, stored, bind_eq_bind, bind_some]
  rw [← present]
  rw [← keyPresent.eq_1]
  cases isThere : keyPresent t key with
  | false =>
    exact ⟨t, h, versions, rfl, inv.mono fresh.le, rfl, fun _ _ _ => rfl⟩
  | true =>
    obtain ⟨writable, fits⟩ := may isThere
    have sizes : cfg.Unwrapped (cfg.keylen key) 0 ∧ cfg.keylen key < cfg.maxKeySize := by
      have present := (Bool.and_eq_true_iff.mp isThere).1
      rw [(btreeLeafFindKey_latest sorted key).1, isSome_iff_exists] at present
      obtain ⟨e, latest⟩ := present
      obtain ⟨mem, same, -⟩ := visible_some latest
      have small := ((inv.roomy.fits _ _ stored).2 e mem).2
      rw [show e.key = key from same] at small
      exact ⟨.inr ⟨small, Nat.zero_le _⟩, small⟩
    rw [if_pos rfl]
    split_ifs with full
    · have may : MayWrite cfg t _ .set := ⟨sizes.1, fun _ => ⟨sizes.2, writable, fits⟩⟩
      exact inv.write fresh may
    · rw [delete_in_leaf stored sorted]
      have room : Room cfg (tombstoneOf key seqno) (Btree.leafFor t key) false :=
        .of_notFull sorted (by simp) (Bool.eq_false_iff.mpr full)
      have update : false = (latestIn (Btree.leafFor t key) key).any fun e =>
          !(tombstoneOf key seqno).tombstone &&
            decide (btreeSnapFindMetaIndex t.snapshots e.seqno = none) := by
        cases latestIn (Btree.leafFor t key) key <;> rfl
      exact inv.finish leaf fresh update sizes.1 fun _ => ⟨sizes.2, writable, room⟩

end Zetascale.Btree
