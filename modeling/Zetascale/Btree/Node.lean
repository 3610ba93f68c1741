import Zetascale.Lib.VersionOrder

/-!
# Nodes of the B+-tree

The nodes of `btree/btree_raw.c` and the space their keys take, as
`btree_raw_init`, `btree_raw_internal.h` and `btree_var_leaf.c` have it, with
prefix compression off. A leaf holds versions of keys with their data, a
non-leaf holds separators. The bytes of a node are not modelled, only its keys
in order and the number of bytes they use.
-/

namespace Zetascale.Btree

/-- The bytes of an object. -/
abbrev Data := List UInt8

/-- `BAD_CHILD`. -/
def BAD_CHILD : ℕ := 0

/-- `sizeof(entry_header_t)`. -/
def sizeofEntryHeader : ℕ := 3

/-- `btree_leaf_get_max_meta`. -/
def btreeLeafGetMaxMeta : ℕ := 34

/-- `sizeof(node_vkey_t)`. -/
def sizeofVkey : ℕ := 24

/-- `sizeof(node_vlkey_t)`. -/
def sizeofVlkey : ℕ := 28

/-- `sizeof(btree_raw_node_t)`. -/
def sizeofRawNode : ℕ := 136

/-- `BTREE_MAX_NODE_SIZE`: the size of the buffers of the leaf code. -/
def BTREE_MAX_NODE_SIZE : ℕ := 32768

/-- The size of `tmp_leaf_node`, in which the leaf code puts a node together. -/
def sizeofTmpLeafNode : ℕ := BTREE_MAX_NODE_SIZE + 100

/-- The sizes of a tree, with what `btree_raw_init` checks of them. Keys
are abstract: all the tree asks of one is its length and its place in the order
of `cmp_cb`. -/
structure Config (κ : Type) where
  keylen : κ → ℕ
  nodesizeLessHdr : ℕ
  maxKeySize : ℕ
  /-- `get_data_in_overflownode`. -/
  ovdatasize : ℕ
  /-- `max_snapshots` of the snapshot metadata. -/
  maxSnapshots : ℕ
  /-- At least four keys of maximal size fit in a node. -/
  fourKeys : 4 * (sizeofVlkey + maxKeySize) ≤ nodesizeLessHdr
  /-- Twice `BTREE_MAX_DATA_SIZE_SUPPORTED / max_nodes_per_object`. -/
  largeObjects : 782 < nodesizeLessHdr
  ovdatasize_pos : 0 < ovdatasize

/-- The parameters of a tree whose leaves are as they are modelled here.
`ZSOpenContainer` takes larger nodes, which the leaf code does not. -/
structure TreeConfig (κ : Type) extends Config κ where
  /-- `space_op_disabled`, which `BTREE_SPACE_OPT_DISABLED` sets. -/
  spaceOpDisabled : Bool
  /-- No entry leaves a part of its key to another one. -/
  uncompressed : spaceOpDisabled = true
  /-- A leaf can be put together in `tmp_leaf_node`. -/
  nodesize_le : nodesizeLessHdr + sizeofRawNode ≤ sizeofTmpLeafNode

/-- The encodings of a leaf key's metadata that are used without prefix
compression. -/
inductive MetaType
  | type2
  | type3
  | type4
  deriving DecidableEq

/-- `get_meta_type_to_size`. -/
def MetaType.size : MetaType → ℕ
  | type2 => 13
  | type3 => 24
  | type4 => 34

/-- `get_key_meta_type`. -/
def getKeyMetaType (keylen datalen : ℕ) : MetaType :=
  if keylen < 255 ∧ datalen < 255 then .type2
  else if keylen < 65535 ∧ datalen < 65535 then .type3
  else .type4

theorem MetaType.size_le (t : MetaType) : t.size ≤ btreeLeafGetMaxMeta := by
  cases t <;> decide

theorem MetaType.size_ge (t : MetaType) : 13 ≤ t.size := by
  cases t <;> decide

variable {κ : Type}

namespace Config

variable (cfg : Config κ)

/-- `big_object_size`: an object this large has its data in overflow nodes. -/
def bigObjectSize : ℕ := cfg.nodesizeLessHdr / 4 - sizeofEntryHeader - btreeLeafGetMaxMeta

/-- `big_object_kd`. -/
def bigObjectKd (keylen datalen : ℕ) : Bool := decide (cfg.bigObjectSize ≤ keylen + datalen)

/-- `btree_get_bigobj_inleaf`: how many bytes of a big object stay in the leaf.
The room left by the key is computed in 64 bits, and wraps for a key longer
than `big_object_size`. -/
def btreeGetBigobjInleaf (keylen datalen : ℕ) : ℕ :=
  let rem := if keylen ≤ cfg.bigObjectSize then cfg.bigObjectSize - keylen
    else 2 ^ 64 + cfg.bigObjectSize - keylen
  if datalen ≤ cfg.ovdatasize then 0
  else if datalen % cfg.ovdatasize < rem then datalen % cfg.ovdatasize
  else 0

/-- The room left by the key is not used after it has wrapped: the key is no longer
than `big_object_size`, or all data goes to one overflow node. -/
def Unwrapped (keylen datalen : ℕ) : Prop :=
  keylen ≤ cfg.bigObjectSize ∨ keylen < cfg.maxKeySize ∧ datalen ≤ cfg.ovdatasize

instance (keylen datalen : ℕ) : Decidable (cfg.Unwrapped keylen datalen) :=
  inferInstanceAs (Decidable (_ ∨ _))

/-- The bytes of an object's data that are kept in the leaf. -/
def datalenInLeaf (keylen datalen : ℕ) : ℕ :=
  if cfg.bigObjectKd keylen datalen then cfg.btreeGetBigobjInleaf keylen datalen else datalen

theorem bigObjectSize_add : cfg.bigObjectSize + 37 = cfg.nodesizeLessHdr / 4 := by
  have large := cfg.largeObjects
  simp only [bigObjectSize, sizeofEntryHeader, btreeLeafGetMaxMeta]
  omega

theorem btreeGetBigobjInleaf_le (keylen datalen : ℕ) :
    cfg.btreeGetBigobjInleaf keylen datalen ≤ datalen := by
  unfold btreeGetBigobjInleaf
  have modLe := Nat.mod_le datalen cfg.ovdatasize
  dsimp only
  split_ifs <;> omega

/-- What an object keeps in the leaf besides its metadata is bounded by
`big_object_size`, whatever the size of its data. -/
theorem keylen_add_datalenInLeaf_le {keylen : ℕ} (short : keylen ≤ cfg.bigObjectSize)
    (datalen : ℕ) : keylen + cfg.datalenInLeaf keylen datalen ≤ cfg.bigObjectSize := by
  unfold datalenInLeaf bigObjectKd
  split
  · unfold btreeGetBigobjInleaf
    dsimp only
    split_ifs <;> omega
  · rename_i small
    simp only [decide_eq_true_eq, not_le] at small
    omega

end Config

/-- One version of a key in a leaf. -/
structure Entry (κ : Type) where
  key : κ
  seqno : ℕ
  tombstone : Bool
  /-- The length of the object's data. -/
  datalen : ℕ
  /-- The first overflow node of a big object. -/
  ptr : ℕ
  /-- The part of the data that is in the leaf. -/
  inleaf : Data
  deriving DecidableEq

/-- A separator in a non-leaf, with the child before it. -/
structure Sep (κ : Type) where
  key : κ
  seqno : ℕ
  ptr : ℕ
  deriving DecidableEq

/-- A node. -/
inductive Node (κ : Type)
  | leaf (next : ℕ) (entries : List (Entry κ))
  | nonleaf (level next : ℕ) (keys : List (Sep κ)) (rightmost : ℕ)
  deriving DecidableEq

/-- The place of a version in the order of the tree. -/
def Entry.pos {κ : Type} (e : Entry κ) : Pos κ := ⟨e.key, WithTop.some e.seqno⟩

/-- The place of a separator in the order of the tree. -/
def Sep.pos {κ : Type} (s : Sep κ) : Pos κ := ⟨s.key, WithTop.some s.seqno⟩

@[simp] theorem Entry.pos_key {κ : Type} (e : Entry κ) : e.pos.key = e.key := rfl
@[simp] theorem Sep.pos_key {κ : Type} (s : Sep κ) : s.pos.key = s.key := rfl

/-- The `level` field: leaves have level 0. -/
def Node.level : Node κ → ℕ
  | leaf .. => 0
  | nonleaf level .. => level

/-! ## Space -/

variable (cfg : Config κ)

/-- `get_key_meta_space_used`, for an object of this size. -/
def keyMetaSpaceUsed (keylen datalen : ℕ) : ℕ :=
  (getKeyMetaType keylen datalen).size + keylen + cfg.datalenInLeaf keylen datalen

/-- The bytes one entry takes in a leaf, its header included. -/
def entrySize (keylen datalen : ℕ) : ℕ :=
  sizeofEntryHeader + keyMetaSpaceUsed cfg keylen datalen

/-- The bytes an entry takes in its leaf. -/
def Entry.size (e : Entry κ) : ℕ := entrySize cfg (cfg.keylen e.key) e.datalen

/-- `btree_leaf_used_space`. -/
def btreeLeafUsedSpace (entries : List (Entry κ)) : ℕ := (entries.map (Entry.size cfg)).sum

/-- The bytes a separator takes in its node. -/
def Sep.size (s : Sep κ) : ℕ := sizeofVkey + cfg.keylen s.key

/-- The used bytes of a non-leaf. -/
def vnodeUsedSpace (keys : List (Sep κ)) : ℕ := (keys.map (Sep.size cfg)).sum

@[simp] theorem btreeLeafUsedSpace_nil : btreeLeafUsedSpace cfg [] = 0 := rfl

@[simp] theorem btreeLeafUsedSpace_cons (e : Entry κ) (l : List (Entry κ)) :
    btreeLeafUsedSpace cfg (e :: l) = e.size cfg + btreeLeafUsedSpace cfg l := by
  simp [btreeLeafUsedSpace]

@[simp] theorem btreeLeafUsedSpace_append (l l' : List (Entry κ)) :
    btreeLeafUsedSpace cfg (l ++ l') = btreeLeafUsedSpace cfg l + btreeLeafUsedSpace cfg l' := by
  simp [btreeLeafUsedSpace]

theorem btreeLeafUsedSpace_sublist {l l' : List (Entry κ)} (sub : l.Sublist l') :
    btreeLeafUsedSpace cfg l ≤ btreeLeafUsedSpace cfg l' := by
  induction sub with
  | slnil => exact le_rfl
  | cons e _ ih =>
    rw [btreeLeafUsedSpace_cons]
    omega
  | cons_cons e _ ih =>
    rw [btreeLeafUsedSpace_cons, btreeLeafUsedSpace_cons]
    omega

@[simp] theorem vnodeUsedSpace_nil : vnodeUsedSpace cfg [] = 0 := rfl

@[simp] theorem vnodeUsedSpace_cons (s : Sep κ) (l : List (Sep κ)) :
    vnodeUsedSpace cfg (s :: l) = s.size cfg + vnodeUsedSpace cfg l := by
  simp [vnodeUsedSpace]

@[simp] theorem vnodeUsedSpace_append (l l' : List (Sep κ)) :
    vnodeUsedSpace cfg (l ++ l') = vnodeUsedSpace cfg l + vnodeUsedSpace cfg l' := by
  simp [vnodeUsedSpace]

/-- An entry takes at most a quarter of a leaf. -/
theorem entrySize_le {keylen : ℕ} (short : keylen ≤ cfg.bigObjectSize) (datalen : ℕ) :
    entrySize cfg keylen datalen ≤ cfg.nodesizeLessHdr / 4 := by
  have data := cfg.keylen_add_datalenInLeaf_le short datalen
  have metaLe := (getKeyMetaType keylen datalen).size_le
  have quarter := cfg.bigObjectSize_add
  simp only [entrySize, keyMetaSpaceUsed, sizeofEntryHeader, btreeLeafGetMaxMeta] at *
  omega

/-- An entry whose room has not wrapped takes hardly more. -/
theorem entrySize_le_of_unwrapped {keylen datalen : ℕ} (unwrapped : cfg.Unwrapped keylen datalen) :
    entrySize cfg keylen datalen ≤ cfg.nodesizeLessHdr / 4 + 8 := by
  rcases unwrapped with short | ⟨small, single⟩
  · exact (entrySize_le cfg short datalen).trans (Nat.le_add_right _ _)
  · have metaLe := (getKeyMetaType keylen datalen).size_le
    have keys := cfg.fourKeys
    have kept : cfg.datalenInLeaf keylen datalen = 0 ∨ keylen + datalen < cfg.bigObjectSize := by
      unfold Config.datalenInLeaf Config.bigObjectKd
      by_cases big : cfg.bigObjectSize ≤ keylen + datalen
      · left
        simp [big, Config.btreeGetBigobjInleaf, single]
      · exact .inr (not_le.mp big)
    rcases kept with none | small
    · simp only [entrySize, keyMetaSpaceUsed, none, sizeofEntryHeader, sizeofVlkey,
        btreeLeafGetMaxMeta] at *
      omega
    · have short : keylen ≤ cfg.bigObjectSize := by omega
      exact (entrySize_le cfg short datalen).trans (Nat.le_add_right _ _)

theorem entrySize_pos (keylen datalen : ℕ) : 16 ≤ entrySize cfg keylen datalen := by
  have metaGe := (getKeyMetaType keylen datalen).size_ge
  simp only [entrySize, keyMetaSpaceUsed, sizeofEntryHeader]
  omega

end Zetascale.Btree
