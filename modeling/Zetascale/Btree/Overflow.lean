import Zetascale.Btree.Tree

/-!
# Overflow data

The data of a big object is in a chain of overflow nodes. `Stored` says that
the entries of a tree hold their data: each has its own chain, no overflow node
is in two of them, and all are below the counter of logical ids. Reading,
freeing and writing one entry is then a matter of its own chain.
-/

namespace Zetascale.Btree

open List Option

variable {κ : Type}

/-- The leaf and the chain of overflow nodes `ids` hold the data of an entry. -/
structure Entry.Keeps (cfg : Config κ) (heap : ChunkChain.Heap UInt8) (ids : List ℕ)
    (e : Entry κ) (data : Data) : Prop where
  datalen : e.datalen = data.length
  inleaf : e.inleaf = data.take (cfg.datalenInLeaf (cfg.keylen e.key) data.length)
  nonempty : e.big cfg = true → data ≠ []
  chain : e.big cfg = true → ChunkChain.Holds cfg.ovdatasize heap ids e.ptr
    (data.drop (cfg.btreeGetBigobjInleaf (cfg.keylen e.key) data.length))
  unused : e.big cfg = false → ids = []

open Entry

/-- The entries hold their data in the heap, in chains below `bound`. -/
def Stored (cfg : Config κ) (heap : ChunkChain.Heap UInt8) (bound : ℕ)
    (versions : List (Entry κ × Data)) : Prop :=
  ∃ owners : List (List ℕ × Entry κ × Data), owners.map Prod.snd = versions ∧
    (∀ o ∈ owners, o.2.1.Keeps cfg heap o.1 o.2.2) ∧ (owners.flatMap Prod.fst).Nodup ∧
    ∀ id ∈ owners.flatMap Prod.fst, id < bound

variable {cfg : Config κ} {t : Tree κ} {heap heap' : ChunkChain.Heap UInt8} {e : Entry κ}
  {data : Data} {ids : List ℕ}

/-- An entry does not depend on the overflow nodes of others. -/
theorem Entry.Keeps.congr (keeps : e.Keeps cfg heap ids data)
    (agree : ∀ id ∈ ids, heap' id = heap id) : e.Keeps cfg heap' ids data :=
  { keeps with chain := fun big => (keeps.chain big).congr agree }

/-- The part of a big object in the leaf never is all of it. -/
theorem btreeGetBigobjInleaf_lt (cfg : Config κ) {datalen : ℕ} (keylen : ℕ) (nonempty : datalen ≠ 0) :
    cfg.btreeGetBigobjInleaf keylen datalen < datalen := by
  have positive := cfg.ovdatasize_pos
  have modLt := Nat.mod_lt datalen positive
  unfold Config.btreeGetBigobjInleaf
  dsimp only
  split_ifs <;> omega

section

variable (keeps : e.Keeps cfg heap ids data)

include keeps

theorem Entry.Keeps.overflowLen_eq : e.overflowLen cfg =
    (data.drop (cfg.btreeGetBigobjInleaf (cfg.keylen e.key) data.length)).length := by
  rw [length_drop, overflowLen, keeps.datalen]

theorem Entry.Keeps.datalen_ne_zero (big : e.big cfg = true) : e.datalen ≠ 0 := by
  rw [keeps.datalen]
  exact (length_pos_iff.mpr (keeps.nonempty big)).ne'

/-- The leaf and the overflow nodes have the two parts of a big object. -/
theorem Entry.Keeps.parts (big : e.big cfg = true) :
    e.inleaf = data.take (cfg.btreeGetBigobjInleaf (cfg.keylen e.key) data.length) ∧
      ChunkChain.read cfg.ovdatasize heap e.datalen (e.overflowLen cfg) e.ptr =
        (data.drop (cfg.btreeGetBigobjInleaf (cfg.keylen e.key) data.length), 0, 0) := by
  have big' : cfg.bigObjectKd (cfg.keylen e.key) data.length = true := keeps.datalen ▸ big
  constructor
  · rw [keeps.inleaf, Config.datalenInLeaf, if_pos big']
  · rw [keeps.overflowLen_eq]
    apply (keeps.chain big).read_eq cfg.ovdatasize_pos
    rw [length_drop, keeps.datalen]
    omega

theorem Entry.Keeps.inleaf_eq (small : ¬ e.big cfg = true) : e.inleaf = data := by
  have small' : ¬ cfg.bigObjectKd (cfg.keylen e.key) data.length = true := keeps.datalen ▸ small
  rw [keeps.inleaf, Config.datalenInLeaf, if_neg small', take_length]

end

theorem Entry.Keeps.read (keeps : e.Keeps cfg t.ovnodes ids data) :
    getLeafDataNthKey cfg t e = some (.success, data) := by
  unfold getLeafDataNthKey
  split_ifs with big empty
  · exact absurd empty (keeps.datalen_ne_zero big)
  · obtain ⟨inleaf, rest⟩ := keeps.parts big
    simp only [rest, ne_eq, not_true_eq_false, if_false]
    rw [inleaf, take_append_drop]
  · rw [keeps.inleaf_eq big]

theorem Entry.Keeps.ids_of_single (keeps : e.Keeps cfg heap ids data) (big : e.big cfg = true)
    (single : e.overflowLen cfg ≤ cfg.ovdatasize) : ids = [e.ptr] := by
  have held := keeps.chain big
  have rest : data.drop (cfg.btreeGetBigobjInleaf (cfg.keylen e.key) data.length) ≠ [] := by
    have less := btreeGetBigobjInleaf_lt cfg (cfg.keylen e.key)
      (length_pos_iff.mpr (keeps.nonempty big)).ne'
    rw [ne_eq, drop_eq_nil_iff]
    omega
  match ids, held with
  | [], held => exact absurd held.2 rest
  | [id], held => rw [held.1]
  | id :: id' :: more, held =>
    obtain ⟨-, -, -, next, -, -, -, nonempty, -⟩ := held
    have short : (data.drop (cfg.btreeGetBigobjInleaf (cfg.keylen e.key)
        data.length)).drop cfg.ovdatasize = [] := by
      rw [drop_eq_nil_iff, ← keeps.overflowLen_eq]
      exact single
    exact absurd short nonempty

theorem Entry.Keeps.free (keeps : e.Keeps cfg t.ovnodes ids data) (distinct : ids.Nodup) :
    freeEntryData cfg t e =
      some { t with ovnodes := fun id => if id ∈ ids then none else t.ovnodes id } := by
  unfold freeEntryData
  split_ifs with big
  · have held := keeps.chain big
    have count := keeps.overflowLen_eq
    have lengths := held.length_le cfg.ovdatasize_pos
    unfold deleteOverflowData
    split_ifs with single
    · obtain rfl := keeps.ids_of_single big single
      congr 2
      funext id
      simp [Function.update_apply]
    · rw [held.free_eq distinct (by omega)]
      rfl
  · rw [keeps.unused (Bool.eq_false_iff.mpr big)]
    simp

variable {l r : List (Entry κ × Data)}

section

variable {bound : ℕ} {versions : List (Entry κ × Data)}

theorem Stored.nil (cfg : Config κ) (heap : ChunkChain.Heap UInt8) (bound : ℕ) :
    Stored cfg heap bound [] := ⟨[], rfl, by simp, by simp, by simp⟩

theorem Stored.mono {bound' : ℕ} (stored : Stored cfg heap bound versions) (le : bound ≤ bound') :
    Stored cfg heap bound' versions := by
  obtain ⟨owners, same, keeps, distinct, below⟩ := stored
  exact ⟨owners, same, keeps, distinct, fun id mem => (below id mem).trans_le le⟩

theorem Stored.read (stored : Stored cfg t.ovnodes bound versions) (mem : (e, data) ∈ versions) :
    getLeafDataNthKey cfg t e = some (.success, data) := by
  obtain ⟨owners, rfl, keeps, -, -⟩ := stored
  obtain ⟨⟨ids, e', data'⟩, oMem, same⟩ := mem_map.mp mem
  cases same
  exact (keeps _ oMem).read

/-- One entry among the others, with its chain. -/
theorem Stored.split (stored : Stored cfg heap bound (l ++ (e, data) :: r)) :
    ∃ ids, e.Keeps cfg heap ids data ∧ ids.Nodup ∧ (∀ id ∈ ids, id < bound) ∧
      ∀ heap', (∀ id, id ∉ ids → heap' id = heap id) → Stored cfg heap' bound (l ++ r) := by
  obtain ⟨owners, same, keeps, distinct, below⟩ := stored
  obtain ⟨left, right, rfl, rfl, rest⟩ := map_eq_append_iff.mp same
  obtain ⟨⟨ids, e', data'⟩, right, rfl, eq, rfl⟩ := map_eq_cons_iff.mp rest
  cases eq
  simp only [flatMap_append, flatMap_cons] at distinct below
  have cut := nodup_append.mp distinct
  have cut' := nodup_append.mp cut.2.1
  refine ⟨ids, keeps (ids, e, data) (by simp), cut'.1,
    fun id mem => below id (by simp [mem]), ?_⟩
  intro heap' agree
  refine ⟨left ++ right, by simp, ?_, ?_, ?_⟩
  · intro o mem
    refine (keeps o ?_).congr fun id idMem => agree id ?_
    · rcases mem_append.mp mem with inLeft | inRight
      · exact mem_append_left _ inLeft
      · exact mem_append_right _ (mem_cons_of_mem _ inRight)
    · intro own
      rcases mem_append.mp mem with inLeft | inRight
      · exact cut.2.2 id (mem_flatMap.mpr ⟨o, inLeft, idMem⟩) id (mem_append_left _ own) rfl
      · exact cut'.2.2 id own id (mem_flatMap.mpr ⟨o, inRight, idMem⟩) rfl
  · rw [flatMap_append, nodup_append]
    exact ⟨cut.1, cut'.2.1, fun a aMem b bMem => cut.2.2 a aMem b (mem_append_right _ bMem)⟩
  · intro id mem
    apply below id
    rw [flatMap_append] at mem
    rcases mem_append.mp mem with inLeft | inRight
    · exact mem_append_left _ inLeft
    · exact mem_append_right _ (mem_append_right _ inRight)

theorem Stored.free (stored : Stored cfg t.ovnodes bound (l ++ (e, data) :: r)) :
    ∃ heap', freeEntryData cfg t e = some { t with ovnodes := heap' } ∧
      Stored cfg heap' bound (l ++ r) := by
  obtain ⟨ids, keeps, distinct, -, others⟩ := stored.split
  refine ⟨_, keeps.free distinct, others _ fun id notMem => ?_⟩
  rw [if_neg notMem]

/-- A new entry with a chain of its own beside the others. -/
theorem Stored.insert (stored : Stored cfg heap bound (l ++ r)) {bound' : ℕ}
    (keeps : e.Keeps cfg heap' ids data) (distinct : ids.Nodup)
    (range : ∀ id ∈ ids, bound ≤ id ∧ id < bound') (le : bound ≤ bound')
    (agree : ∀ id, id < bound → heap' id = heap id) :
    Stored cfg heap' bound' (l ++ (e, data) :: r) := by
  obtain ⟨owners, same, others, distinct', below⟩ := stored
  obtain ⟨left, right, rfl, rfl, rfl⟩ := map_eq_append_iff.mp same
  have old : ∀ o ∈ left ++ right, ∀ id ∈ o.1, id < bound := fun o mem id idMem =>
    below id (mem_flatMap.mpr ⟨o, mem, idMem⟩)
  rw [flatMap_append] at distinct' below
  obtain ⟨leftDistinct, rightDistinct, apart⟩ := nodup_append.mp distinct'
  refine ⟨left ++ (ids, e, data) :: right, by simp, ?_, ?_, ?_⟩
  · intro o mem
    rcases mem_append.mp mem with inLeft | inRight
    · have here := mem_append_left right inLeft
      exact (others o here).congr fun id idMem => agree id (old o here id idMem)
    · rcases mem_cons.mp inRight with rfl | inRight
      · exact keeps
      · have here := mem_append_right left inRight
        exact (others o here).congr fun id idMem => agree id (old o here id idMem)
  · rw [flatMap_append, flatMap_cons, nodup_append, nodup_append]
    refine ⟨leftDistinct, ⟨distinct, rightDistinct, ?_⟩, ?_⟩
    · rintro a own b inRight rfl
      have less := below a (mem_append_right _ inRight)
      have := (range a own).1
      omega
    · rintro a inLeft b elsewhere rfl
      rcases mem_append.mp elsewhere with own | inRight
      · have less := below a (mem_append_left _ inLeft)
        have := (range a own).1
        omega
      · exact apart a inLeft a inRight rfl
  · intro id mem
    rw [flatMap_append, flatMap_cons] at mem
    rcases mem_append.mp mem with inLeft | elsewhere
    · exact (below id (mem_append_left _ inLeft)).trans_le le
    · rcases mem_append.mp elsewhere with own | inRight
      · exact (range id own).2
      · exact (below id (mem_append_right _ inRight)).trans_le le

end

/-! ## Writing one entry -/

/-- What `btree_leaf_insert_low` and the metadata of an entry ask of an object:
a big one has data, and its metadata has room for a pointer. -/
def Config.Writable (cfg : Config κ) (keylen datalen : ℕ) : Prop :=
  cfg.bigObjectKd keylen datalen = true → datalen ≠ 0 ∧ getKeyMetaType keylen datalen ≠ .type2

instance (cfg : Config κ) (keylen datalen : ℕ) : Decidable (cfg.Writable keylen datalen) :=
  inferInstanceAs (Decidable (_ → _))

/-- A tree that differs only in its overflow nodes and the counter. -/
structure SameNodes (t t' : Tree κ) : Prop where
  nodes : t'.nodes = t.nodes
  rootid : t'.rootid = t.rootid
  snapshots : t'.snapshots = t.snapshots
  counter_le : t.logical_id_counter ≤ t'.logical_id_counter

open SameNodes

variable {t' : Tree κ}

section

variable {t'' : Tree κ}

theorem SameNodes.refl (t : Tree κ) : SameNodes t t := ⟨rfl, rfl, rfl, le_rfl⟩

theorem SameNodes.trans (first : SameNodes t t') (second : SameNodes t' t'') : SameNodes t t'' :=
  ⟨second.nodes.trans first.nodes, second.rootid.trans first.rootid,
    second.snapshots.trans first.snapshots, first.counter_le.trans second.counter_le⟩

theorem freeEntryData_same (freed : freeEntryData cfg t e = some t') :
    SameNodes t t' ∧ t'.logical_id_counter = t.logical_id_counter := by
  unfold freeEntryData deleteOverflowData at freed
  split_ifs at freed with big single
  · cases freed
    exact ⟨⟨rfl, rfl, rfl, le_rfl⟩, rfl⟩
  · obtain ⟨heap, -, rfl⟩ := map_eq_some_iff.mp freed
    exact ⟨⟨rfl, rfl, rfl, le_rfl⟩, rfl⟩
  · cases freed
    exact ⟨SameNodes.refl t, rfl⟩

theorem allocateOverflowData_same (cfg : Config κ) (t : Tree κ) (data : Data) :
    SameNodes t (allocateOverflowData cfg t data).2 := by
  unfold allocateOverflowData
  split_ifs
  · exact SameNodes.refl t
  · exact ⟨rfl, rfl, rfl, ChunkChain.le_write ..⟩

theorem allocate_keeps (cfg : Config κ) (t : Tree κ) (key : κ) (seqno : ℕ) (tombstone : Bool)
    (data : Data) (started : t.logical_id_counter ≠ 0)
    (writable : cfg.Writable (cfg.keylen key) data.length)
    (big : cfg.bigObjectKd (cfg.keylen key) data.length = true) : ∃ t', allocateOverflowData cfg t
        (data.drop (cfg.btreeGetBigobjInleaf (cfg.keylen key) data.length)) =
          (t.logical_id_counter, t') ∧
      SameNodes t t' ∧ (∀ id < t.logical_id_counter, t'.ovnodes id = t.ovnodes id) ∧
      (Entry.make cfg key seqno tombstone data t.logical_id_counter).Keeps cfg t'.ovnodes
        (range' t.logical_id_counter (t'.logical_id_counter - t.logical_id_counter)) data := by
  obtain ⟨nonempty, wide⟩ := writable big
  have less := btreeGetBigobjInleaf_lt cfg (cfg.keylen key) nonempty
  have rest : data.drop (cfg.btreeGetBigobjInleaf (cfg.keylen key) data.length) ≠ [] := by
    rw [ne_eq, drop_eq_nil_iff]
    omega
  obtain ⟨count, used, held, others⟩ := ChunkChain.write_holds t.ovnodes t.logical_id_counter _
    started rest cfg.ovdatasize_pos le_rfl
  have same := allocateOverflowData_same cfg t
    (data.drop (cfg.btreeGetBigobjInleaf (cfg.keylen key) data.length))
  simp only [allocateOverflowData, if_neg rest] at same ⊢
  refine ⟨_, rfl, same, fun id below => others id (.inl below), ?_⟩
  simp only [used, Nat.add_sub_cancel_left]
  exact {
    datalen := rfl
    inleaf := rfl
    nonempty := fun _ => length_pos_iff.mp (Nat.pos_of_ne_zero nonempty)
    chain := fun _ => by
      simp only [make, if_neg wide]
      exact held
    unused := fun small => by
      cases big.symm.trans small }

end

variable {entries changed : List (Entry κ)} {key : κ} {seqno index : ℕ}
  {tombstone key_exists : Bool}

theorem insertEntry_some (inserted : insertEntry cfg t entries key data seqno tombstone index
      key_exists = some (t', changed)) : ∃ ptr, SameNodes t t' ∧ btreeLeafUpdateKey cfg entries
      (Entry.make cfg key seqno tombstone data ptr) index key_exists = some changed := by
  simp only [insertEntry] at inserted
  split_ifs at inserted <;> obtain ⟨_, update, ⟨⟩⟩ := map_eq_some_iff.mp inserted
  · exact ⟨_, allocateOverflowData_same .., update⟩
  · exact ⟨_, refl t, update⟩

theorem btreeLeafInsertLow_some (inserted : btreeLeafInsertLow cfg t entries key data seqno
      tombstone index key_exists = some (t', changed)) :
    ∃ ptr, SameNodes t t' ∧ btreeLeafUpdateKey cfg entries
      (Entry.make cfg key seqno tombstone data ptr) index key_exists = some changed := by
  obtain ⟨freed, first, inserted⟩ := bind_eq_some_iff.mp inserted
  obtain ⟨ptr, same, update⟩ := insertEntry_some inserted
  refine ⟨ptr, trans ?_ same, update⟩
  split_ifs at first
  · obtain ⟨e, -, free⟩ := bind_eq_some_iff.mp first
    exact (freeEntryData_same free).1
  · cases first
    exact SameNodes.refl t

theorem Entry.make_keeps_small (key : κ) (seqno : ℕ) (tombstone : Bool) (data : Data)
    (small : ¬ cfg.bigObjectKd (cfg.keylen key) data.length = true) :
    (Entry.make cfg key seqno tombstone data 0).Keeps cfg heap [] data where
  datalen := rfl
  inleaf := rfl
  nonempty := fun big => absurd big small
  chain := fun big => absurd big small
  unused := fun _ => rfl

/-- An object that may be written is written, and its data is stored. -/
theorem Stored.insertEntry (stored : Stored cfg t.ovnodes t.logical_id_counter (l ++ r))
    (started : t.logical_id_counter ≠ 0) (writable : cfg.Writable (cfg.keylen key) data.length)
    (fits : ∀ ptr, ∃ changed, btreeLeafUpdateKey cfg entries
      (Entry.make cfg key seqno tombstone data ptr) index key_exists = some changed) :
    ∃ t' ptr changed, Btree.insertEntry cfg t entries key data seqno tombstone index key_exists =
        some (t', changed) ∧
      btreeLeafUpdateKey cfg entries (Entry.make cfg key seqno tombstone data ptr) index
        key_exists = some changed ∧ SameNodes t t' ∧ Stored cfg t'.ovnodes t'.logical_id_counter
        (l ++ (Entry.make cfg key seqno tombstone data ptr, data) :: r) := by
  simp only [Btree.insertEntry]
  by_cases big : cfg.bigObjectKd (cfg.keylen key) data.length = true
  · obtain ⟨t', allocated, same, others, keeps⟩ :=
      allocate_keeps cfg t key seqno tombstone data started writable big
    obtain ⟨changed, update⟩ := fits t.logical_id_counter
    have grown := same.counter_le
    refine ⟨t', _, changed, ?_, update, same,
      stored.insert keeps nodup_range' (fun id mem => ?_) grown others⟩
    · rw [if_pos big, if_neg (writable big).1, allocated]
      simp [if_neg started, update]
    · rw [mem_range'_1] at mem
      omega
  · obtain ⟨changed, update⟩ := fits 0
    refine ⟨t, 0, changed, ?_, update, refl t, ?_⟩
    · rw [if_neg big, update]
      rfl
    · exact stored.insert (make_keeps_small key seqno tombstone data big) nodup_nil
        (by simp) le_rfl fun _ _ => rfl

end Zetascale.Btree
