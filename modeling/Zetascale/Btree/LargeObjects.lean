import Zetascale.Btree.Overflow

/-!
# Storing and reading large objects

The two readers of an object's data in `btree/btree_raw.c`, with the buffer a
caller may provide. `get_leaf_data_nth_key` forgets the size of that buffer
before it looks at it.
-/

namespace Zetascale.Btree

open List

/-- The statuses of the readers. -/
inductive ReadStatus
  | success
  | bufferTooSmall
  | failure
  | objectUnknown
  deriving DecidableEq

/-- The flags of a reader's metadata. -/
structure ReadFlags where
  bufferProvided : Bool
  inplacePointers : Bool
  allocIfTooSmall : Bool

/-- What a reader returns. There is no data if not all bytes of the buffer were
written. -/
structure ReadAnswer where
  status : ReadStatus
  data : Option Data
  datalen : ℕ

/-- The readers of an entry's data. -/
inductive DataReader
  | index
  | nthKey

section

variable {κ : Type} (cfg : Config κ)

/-- The part of both readers that follows the overflow nodes. With the data
comes the status of the last node that was read. -/
def readOverflow (t : Tree κ) (e : Entry κ) : Option (Option Data × ReadStatus) :=
  let inleaf := e.inleaf.take (cfg.btreeGetBigobjInleaf (cfg.keylen e.key) e.datalen)
  let rest := ChunkChain.read cfg.ovdatasize t.ovnodes e.datalen (e.overflowLen cfg) e.ptr
  if rest.2.1 ≠ 0 then some (none, if rest.2.2 = 0 then .success else .objectUnknown)
  else if rest.2.2 ≠ 0 then none
  else some (some (inleaf ++ rest.1), .success)

/-- The data part of `get_leaf_data_index`, once it has a buffer. -/
def indexData (t : Tree κ) (e : Entry κ) (inplacePointers : Bool) (ret : ReadStatus) :
    Option ReadAnswer :=
  if e.big cfg then
    if e.datalen = 0 then some ⟨ret, some [], e.datalen⟩
    else (readOverflow cfg t e).map fun (data, ret2) =>
      if data.isSome then ⟨ret, data, e.datalen⟩ else ⟨ret2, none, e.datalen⟩
  else if inplacePointers then none
  else some ⟨ret, some e.inleaf, e.datalen⟩

/-- `get_leaf_data_index`, with a buffer of `datalen` bytes. -/
def getLeafDataIndex (t : Tree κ) (e : Entry κ) (flags : ReadFlags) (datalen : ℕ) :
    Option ReadAnswer :=
  let provided :=
    if flags.inplacePointers then if e.big cfg then 0 else e.datalen else datalen
  if (flags.bufferProvided = true ∨ flags.inplacePointers = true) ∧ provided < e.datalen then
    if flags.allocIfTooSmall then indexData cfg t e flags.inplacePointers .bufferTooSmall
    else some ⟨.bufferTooSmall, none, provided⟩
  else indexData cfg t e flags.inplacePointers .success

/-- The data part of `get_leaf_data_nth_key`. Reading an overflow node sets the
status anew. -/
def nthKeyData (t : Tree κ) (e : Entry κ) (ret : ReadStatus) : Option ReadAnswer :=
  if e.big cfg then
    if e.datalen = 0 then some ⟨ret, some [], e.datalen⟩
    else (readOverflow cfg t e).map fun (data, ret) =>
      if data.isSome then ⟨ret, data, e.datalen⟩ else ⟨.failure, none, 0⟩
  else some ⟨ret, some e.inleaf, e.datalen⟩

/-- `get_leaf_data_nth_key`, with its flags. The size of the caller's buffer is
set to 0 before it is looked at. -/
def getLeafDataNthKeyFlags (t : Tree κ) (e : Entry κ) (flags : ReadFlags) : Option ReadAnswer :=
  if flags.bufferProvided = true ∧ 0 < e.datalen then
    if flags.allocIfTooSmall then nthKeyData cfg t e .bufferTooSmall
    else some ⟨.bufferTooSmall, none, 0⟩
  else nthKeyData cfg t e .success

/-- One of the readers. -/
def DataReader.read (t : Tree κ) (e : Entry κ) (flags : ReadFlags) (datalen : ℕ) :
    DataReader → Option ReadAnswer
  | .index => getLeafDataIndex cfg t e flags datalen
  | .nthKey => getLeafDataNthKeyFlags cfg t e flags

open DataReader

/-- The part of `btree_leaf_insert_low` that stores an object's data: the entry
for the leaf, and the tree with the overflow nodes. -/
def storeObject (t : Tree κ) (key : κ) (data : Data) (seqno : ℕ) (tombstone : Bool) :
    Option (Tree κ × Entry κ) :=
  let keylen := cfg.keylen key
  if cfg.bigObjectKd keylen data.length then
    if data.length = 0 then none
    else
      let (ptr, allocated) :=
        allocateOverflowData cfg t (data.drop (cfg.btreeGetBigobjInleaf keylen data.length))
      if ptr = 0 then none else some (allocated, Entry.make cfg key seqno tombstone data ptr)
  else some (t, Entry.make cfg key seqno tombstone data 0)

/-- The ids drawn from the counter between two trees. -/
def drawnIds (t t' : Tree κ) : List ℕ :=
  range' t.logical_id_counter (t'.logical_id_counter - t.logical_id_counter)

/-- The overflow nodes that `delete_overflow_data` visits for an entry. -/
def overflowVisited (t : Tree κ) (e : Entry κ) : List ℕ :=
  if e.big cfg then
    if e.overflowLen cfg ≤ cfg.ovdatasize then [e.ptr]
    else ChunkChain.cells t.ovnodes (e.overflowLen cfg) e.ptr
  else []

/-- An object that is stored reads back the same, in the caller's buffer or in
one that is allocated, and the nodes that are deleted with it are those that were
allocated for it. -/
def RoundTrips (t : Tree κ) (key : κ) (data : Data) (seqno : ℕ) (tombstone : Bool)
    (reader : DataReader) (flags : ReadFlags) (datalen : ℕ) : Prop :=
  ∃ t' e status, storeObject cfg t key data seqno tombstone = some (t', e) ∧
    reader.read cfg t' e flags datalen = some ⟨status, some data, data.length⟩ ∧
    (status = .success ∨ flags.bufferProvided = true ∧ datalen < data.length) ∧
    overflowVisited cfg t' e = drawnIds t t' ∧
    freeEntryData cfg t' e =
      some { t' with ovnodes := fun id => if id ∈ drawnIds t t' then none else t'.ovnodes id }

end

variable {κ : Type} {cfg : Config κ}

theorem insertEntry_eq [LinearOrder κ] (t : Tree κ) (entries : List (Entry κ)) (key : κ)
    (data : Data) (seqno : ℕ) (tombstone : Bool) (index : ℕ) (key_exists : Bool) :
    insertEntry cfg t entries key data seqno tombstone index key_exists =
      (storeObject cfg t key data seqno tombstone).bind fun (t', e) =>
        (btreeLeafUpdateKey cfg entries e index key_exists).map fun changed => (t', changed) := by
  simp only [insertEntry, storeObject]
  split_ifs <;> rfl

theorem storeObject_keeps (t : Tree κ) (key : κ) (data : Data) (seqno : ℕ) (tombstone : Bool)
    (started : t.logical_id_counter ≠ 0) (writable : cfg.Writable (cfg.keylen key) data.length) :
    ∃ t' e, storeObject cfg t key data seqno tombstone = some (t', e) ∧
      e.big cfg = cfg.bigObjectKd (cfg.keylen key) data.length ∧
      e.Keeps cfg t'.ovnodes (drawnIds t t') data := by
  simp only [storeObject]
  by_cases big : cfg.bigObjectKd (cfg.keylen key) data.length = true
  · obtain ⟨t', allocated, -, -, keeps⟩ :=
      allocate_keeps cfg t key seqno tombstone data started writable big
    refine ⟨t', _, ?_, rfl, keeps⟩
    rw [if_pos big, if_neg (writable big).1, allocated]
    simp [if_neg started]
  · rw [if_neg big]
    refine ⟨t, _, rfl, rfl, ?_⟩
    rw [drawnIds, Nat.sub_self]
    exact Entry.make_keeps_small key seqno tombstone data big

variable {t : Tree κ} {ids : List ℕ} {e : Entry κ} {data : Data} {flags : ReadFlags} {datalen : ℕ}

/-- The leaf never holds all of an object. -/
theorem Entry.overflowLen_ne_zero (nonempty : e.datalen ≠ 0) : e.overflowLen cfg ≠ 0 := by
  have less := btreeGetBigobjInleaf_lt cfg (cfg.keylen e.key) nonempty
  rw [Entry.overflowLen]
  omega

/-- A big object whose entry has no pointer is not read. -/
theorem readOverflow_of_zero (nonempty : e.datalen ≠ 0)
    (lost : e.ptr = 0) : readOverflow cfg t e = some (none, .success) := by
  have nothing : ChunkChain.read cfg.ovdatasize t.ovnodes e.datalen (e.overflowLen cfg) e.ptr =
      ([], e.overflowLen cfg, 0) := by
    obtain ⟨fuel, count⟩ := Nat.exists_eq_succ_of_ne_zero nonempty
    rw [count, lost]
    simp [ChunkChain.read]
  simp [readOverflow, nothing, Entry.overflowLen_ne_zero nonempty]

/-- What a reader gives for an entry whose overflow pointer is lost is no data. -/
theorem DataReader.read_of_zero (reader : DataReader) (big : e.big cfg = true)
    (nonempty : e.datalen ≠ 0) (lost : e.ptr = 0) {status : ReadStatus} {length : ℕ} :
    reader.read cfg t e flags datalen ≠ some ⟨status, some data, length⟩ := by
  have index : ∀ inplace ret, indexData cfg t e inplace ret ≠ some ⟨status, some data, length⟩ := by
    intro inplace ret reads
    rw [indexData, if_pos big, if_neg nonempty, readOverflow_of_zero nonempty lost] at reads
    cases reads
  have nthKey : ∀ ret, nthKeyData cfg t e ret ≠ some ⟨status, some data, length⟩ := by
    intro ret reads
    rw [nthKeyData, if_pos big, if_neg nonempty, readOverflow_of_zero nonempty lost] at reads
    cases reads
  cases reader with
  | index =>
    simp only [read, getLeafDataIndex]
    generalize (if flags.inplacePointers = true then _ else datalen) = provided
    split_ifs
    · exact index _ _
    · exact nofun
    · exact index _ _
  | nthKey =>
    simp only [read, getLeafDataNthKeyFlags]
    split_ifs
    · exact nthKey _
    · exact nofun
    · exact nthKey _

namespace Entry.Keeps

variable (keeps : e.Keeps cfg t.ovnodes ids data)

include keeps

theorem readOverflow_eq
    (big : e.big cfg = true) : readOverflow cfg t e = some (some data, .success) := by
  obtain ⟨inleaf, rest⟩ := keeps.parts big
  simp only [readOverflow, rest, ne_eq, not_true_eq_false, if_false]
  rw [inleaf, keeps.datalen, take_take, Nat.min_self, take_append_drop]

theorem visited_eq : overflowVisited cfg t e = ids := by
  unfold overflowVisited
  split_ifs with big single
  · exact (keeps.ids_of_single big single).symm
  · have lengths := (keeps.chain big).length_le cfg.ovdatasize_pos
    rw [← keeps.overflowLen_eq] at lengths
    exact (keeps.chain big).cells_eq lengths
  · exact (keeps.unused (Bool.eq_false_iff.mpr big)).symm

theorem indexData_eq (ret : ReadStatus) :
    indexData cfg t e false ret = some ⟨ret, some data, data.length⟩ := by
  rw [indexData, if_neg Bool.false_ne_true]
  split_ifs with big empty
  · exact absurd empty (keeps.datalen_ne_zero big)
  · rw [keeps.readOverflow_eq big, ← keeps.datalen]
    rfl
  · rw [keeps.inleaf_eq big, keeps.datalen]

theorem nthKeyData_eq (ret : ReadStatus) : nthKeyData cfg t e ret =
      some ⟨if e.big cfg then .success else ret, some data, data.length⟩ := by
  unfold nthKeyData
  split_ifs with big empty
  · exact absurd empty (keeps.datalen_ne_zero big)
  · rw [keeps.readOverflow_eq big, ← keeps.datalen]
    rfl
  · rw [keeps.inleaf_eq big, keeps.datalen]

theorem index_eq (copied : flags.inplacePointers = false)
    (room : flags.bufferProvided = true → data.length ≤ datalen ∨ flags.allocIfTooSmall = true) :
    getLeafDataIndex cfg t e flags datalen =
      some ⟨if flags.bufferProvided = true ∧ datalen < data.length then .bufferTooSmall else .success,
        some data, data.length⟩ := by
  simp only [getLeafDataIndex, copied, Bool.false_eq_true, or_false, if_false, keeps.datalen,
    keeps.indexData_eq]
  split_ifs with small alloc
  · rfl
  · rcases room small.1 with fits | alloc'
    · exact absurd small.2 (not_lt.mpr fits)
    · exact absurd alloc' alloc
  · rfl

theorem nthKey_eq (nonempty : data ≠ [])
    (provided : flags.bufferProvided = true) : getLeafDataNthKeyFlags cfg t e flags =
      if flags.allocIfTooSmall then
        some ⟨if e.big cfg then .success else .bufferTooSmall, some data, data.length⟩
      else some ⟨.bufferTooSmall, none, 0⟩ := by
  have nonempty : 0 < e.datalen := by
    rw [keeps.datalen]
    exact length_pos_iff.mpr nonempty
  rw [getLeafDataNthKeyFlags, if_pos ⟨provided, nonempty⟩, keeps.nthKeyData_eq]

theorem nthKey_eq_success (unneeded : flags.bufferProvided = true → data = []) :
    getLeafDataNthKeyFlags cfg t e flags = some ⟨.success, some data, data.length⟩ := by
  have goesOn : ¬ (flags.bufferProvided = true ∧ 0 < e.datalen) := by
    rintro ⟨provided, nonempty⟩
    rw [keeps.datalen, unneeded provided] at nonempty
    exact absurd nonempty (lt_irrefl 0)
  rw [getLeafDataNthKeyFlags, if_neg goesOn, keeps.nthKeyData_eq, ite_self]

end Entry.Keeps

/-- The caller's buffer, if there is one, does not matter to the reader:
`get_leaf_data_nth_key` takes none for data, allocates another one only if it may,
and then says that the buffer was too small unless it read overflow nodes. -/
def DataReader.Accepts (cfg : Config κ) (key : κ) (data : Data) (flags : ReadFlags) (datalen : ℕ) :
    DataReader → Prop
  | .index => True
  | .nthKey => flags.bufferProvided = true → data = [] ∨ flags.allocIfTooSmall = true ∧
      (cfg.bigObjectKd (cfg.keylen key) data.length = true ∨ datalen < data.length)

section

variable {key : κ} {seqno : ℕ} {tombstone : Bool} {reader : DataReader}

theorem RoundTrips.writable
    (trip : RoundTrips cfg t key data seqno tombstone reader flags datalen) :
    cfg.Writable (cfg.keylen key) data.length := by
  intro big
  obtain ⟨t', e, status, stores, reads, -⟩ := trip
  simp only [storeObject, if_pos big] at stores
  split_ifs at stores with empty zero
  cases stores
  refine ⟨empty, fun narrow => DataReader.read_of_zero reader ?_ ?_ (if_pos narrow) reads⟩
  · exact big
  · exact empty

theorem RoundTrips.accepts (started : t.logical_id_counter ≠ 0)
    (trip : RoundTrips cfg t key data seqno tombstone reader flags datalen) :
    reader.Accepts cfg key data flags datalen := by
  obtain ⟨t', e, stores, big, keeps⟩ :=
    storeObject_keeps t key data seqno tombstone started trip.writable
  obtain ⟨t'', e', status, stores', reads, told, -⟩ := trip
  cases stores.symm.trans stores'
  cases reader with
  | index => trivial
  | nthKey =>
    intro provided
    by_cases empty : data = []
    · exact .inl empty
    rw [DataReader.read, keeps.nthKey_eq empty provided, big] at reads
    split_ifs at reads with alloc isBig
    · exact .inr ⟨alloc, .inl isBig⟩
    · cases reads
      rcases told with success | ⟨-, small⟩
      · cases success
      · exact .inr ⟨alloc, .inr small⟩
    · cases reads

/-- The data of an entry that keeps it is read, by a reader that takes the buffer. -/
theorem Entry.Keeps.reads (keeps : e.Keeps cfg t.ovnodes ids data)
    (big : e.big cfg = cfg.bigObjectKd (cfg.keylen key) data.length)
    (copied : flags.inplacePointers = false)
    (room : flags.bufferProvided = true → data.length ≤ datalen ∨ flags.allocIfTooSmall = true)
    (accepts : reader.Accepts cfg key data flags datalen) :
    ∃ status, reader.read cfg t e flags datalen = some ⟨status, some data, data.length⟩ ∧
      (status = .success ∨ flags.bufferProvided = true ∧ datalen < data.length) := by
  cases reader with
  | index =>
    refine ⟨_, keeps.index_eq copied room, ?_⟩
    split_ifs with small
    · exact .inr small
    · exact .inl rfl
  | nthKey =>
    by_cases unneeded : flags.bufferProvided = true → data = []
    · exact ⟨_, keeps.nthKey_eq_success unneeded, .inl rfl⟩
    · rw [Classical.not_imp] at unneeded
      obtain ⟨provided, nonempty⟩ := unneeded
      rcases accepts provided with empty | ⟨alloc, why⟩
      · exact absurd empty nonempty
      · refine ⟨_, (keeps.nthKey_eq nonempty provided).trans (if_pos alloc), ?_⟩
        rw [big]
        split_ifs with isBig
        · exact .inl rfl
        · exact .inr ⟨provided, why.resolve_left isBig⟩

end

/-- With a buffer that is large enough or may be replaced, an object goes through
storing, reading and deleting exactly when a big one has data and metadata with
room for a pointer, and the reader takes the buffer. -/
theorem large_object_roundtrip_iff (cfg : Config κ) (t : Tree κ)
    (started : t.logical_id_counter ≠ 0) (key : κ) (data : Data) (seqno : ℕ) (tombstone : Bool)
    (reader : DataReader) (flags : ReadFlags) (datalen : ℕ) (copied : flags.inplacePointers = false)
    (room : flags.bufferProvided = true → data.length ≤ datalen ∨ flags.allocIfTooSmall = true) :
    RoundTrips cfg t key data seqno tombstone reader flags datalen ↔
      cfg.Writable (cfg.keylen key) data.length ∧ reader.Accepts cfg key data flags datalen := by
  constructor
  · intro trip
    exact ⟨trip.writable, trip.accepts started⟩
  · rintro ⟨writable, accepts⟩
    obtain ⟨t', e, stores, big, keeps⟩ :=
      storeObject_keeps t key data seqno tombstone started writable
    obtain ⟨status, reads, told⟩ := keeps.reads big copied room accepts
    exact ⟨t', e, status, stores, reads, told, keeps.visited_eq, keeps.free nodup_range'⟩

/-- Nodes of 800 bytes, and keys that are as long as they say. -/
def sampleTree : Config ℕ where
  keylen := fun key => key
  nodesizeLessHdr := 800
  maxKeySize := 172
  ovdatasize := 100
  maxSnapshots := 1
  fourKeys := by decide
  largeObjects := by decide
  ovdatasize_pos := by decide

theorem sampleTree_nodesize : 800 + sizeofRawNode ≤ sizeofTmpLeafNode := by decide

/-- A tree of such nodes, without prefix compression. -/
def smallNodes : TreeConfig ℕ where
  toConfig := sampleTree
  spaceOpDisabled := true
  uncompressed := rfl
  nodesize_le := sampleTree_nodesize

/-- 330 bytes: 30 stay in the leaf, and 300 go to three overflow nodes. -/
theorem large_object_roundtrip_in_buffer :
    RoundTrips sampleTree .init 10 (replicate 330 7) 1 false .index ⟨true, false, false⟩ 330 :=
  (large_object_roundtrip_iff sampleTree .init (by decide) 10 (replicate 330 7) 1 false .index
    ⟨true, false, false⟩ 330 rfl (fun _ => .inl (by rw [length_replicate]))).mpr
    ⟨by rw [length_replicate]; decide, trivial⟩

/-- `get_leaf_data_nth_key` refuses a buffer that is large enough; a key as long as
`big_object_size` cannot be stored without data; and a big object whose key and data
are both short loses its overflow nodes. -/
theorem large_object_lost :
    ¬ RoundTrips sampleTree .init 10 (replicate 330 7) 1 false .nthKey ⟨true, false, false⟩ 330 ∧
    ¬ RoundTrips sampleTree .init 163 [] 1 false .index ⟨false, false, false⟩ 0 ∧
    ¬ RoundTrips sampleTree .init 10 (replicate 200 7) 1 false .index ⟨false, false, false⟩ 0 := by
  refine ⟨fun trip => ?_, fun trip => ?_, fun trip => ?_⟩
  · rcases trip.accepts (by decide) rfl with empty | ⟨alloc, -⟩
    · exact absurd (congrArg length empty) (by rw [length_replicate]; decide)
    · cases alloc
  · exact absurd trip.writable (by decide)
  · have writable := trip.writable
    rw [length_replicate] at writable
    exact absurd writable (by decide)

end Zetascale.Btree
