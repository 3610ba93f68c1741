import Zetascale.Btree.Footprint
import Zetascale.Lib.Extents
import Zetascale.Lib.FrontCoding

/-!
# Leaves with prefix compression

The leaf code of `btree/btree_var_leaf.c`. A leaf is a table of entry headers
and a data area that holds, for each entry, its metadata, the part of its key
that is not shared and its data. An entry may take the front of its key from an
earlier entry, and may leave its metadata to the entry before it.

The data area is a sequence of cells, one for an entry, that are found by their
offset. Reading at an offset where no cell starts, reading a cell as metadata of
another type, and writing the data area over the headers have no result.
-/

namespace Zetascale.VarLeaf

open Btree FrontCoding Extents

/-- The sizes of a tree whose leaves the leaf code is made for. -/
structure LeafConfig extends Config Data where
  default_le : BTREE_DEFAULT_NODE_SIZE - sizeofRawNode ≤ nodesizeLessHdr
  le_max : nodesizeLessHdr ≤ BTREE_MAX_NODE_SIZE - sizeofRawNode

/-- `MIN_COMMON_LENGTH`. -/
def MIN_COMMON_LENGTH : ℕ := 10

/-- `MAX_COMMON_LENGTH`. -/
def MAX_COMMON_LENGTH : ℕ := 200

/-- The setting of prefix compression, which is read from the environment when a
container is opened. -/
structure SpaceOpt where
  spaceOpDisabled : Bool
  minCommonLength : ℕ
  min_le : MIN_COMMON_LENGTH ≤ minCommonLength
  le_max : minCommonLength ≤ MAX_COMMON_LENGTH

/-- `get_common_part`. -/
def getCommonPart (opt : SpaceOpt) (key1 key2 : Data) : ℕ :=
  if opt.spaceOpDisabled then 0
  else if common key1 key2 < opt.minCommonLength then 0
  else common key1 key2

/-! ## Metadata -/

/-- `key_meta_type_t`: an entry of type 1 has the metadata of the entry before
it, but for the sequence number. -/
inductive KeyMetaType
  | type1
  | full (t : MetaType)
  deriving DecidableEq

/-- `get_meta_type_to_size`. -/
def KeyMetaType.size : KeyMetaType → ℕ
  | type1 => 8
  | full t => t.size

/-- `key_meta_t`. The type of the metadata and the tombstone are in the header of
the entry. -/
structure KeyMeta where
  keylen : ℕ
  datalen : ℕ
  prefixIdx : ℕ
  prefixLen : ℕ
  ptr : ℕ
  seqno : ℕ
  compactMeta : Bool

/-- The metadata of an entry as it is in the data area: `key_meta_type1_t`, or
one of the other three, which differ in the width of their fields. -/
inductive KeyMetax
  | type1 (seqno : ℕ)
  | full (t : MetaType) (keylen datalen prefixIdx prefixLen ptr seqno : ℕ)

def KeyMetax.type : KeyMetax → KeyMetaType
  | type1 _ => .type1
  | full t .. => .full t

/-- `get_key_meta_type`. -/
def KeyMeta.type (m : KeyMeta) : KeyMetaType :=
  if m.compactMeta then .type1 else .full (getKeyMetaType m.keylen m.datalen)

/-- `key_meta_to_key_metax`. Metadata of type 2 has no pointer. -/
def keyMetaToKeyMetax (m : KeyMeta) : KeyMetax :=
  match m.type with
  | .type1 => .type1 m.seqno
  | .full t => .full t m.keylen m.datalen m.prefixIdx m.prefixLen
      (if t = .type2 then 0 else m.ptr) m.seqno

/-- What an entry has in the data area. -/
structure Cell where
  metax : KeyMetax
  /-- The key without the front it takes from another entry. -/
  key : Data
  data : Data

def Cell.size (c : Cell) : ℕ := c.metax.type.size + c.key.length + c.data.length

/-- `entry_header_t`. -/
structure EntryHeader where
  metaType : KeyMetaType
  tombstone : Bool
  headerOffset : ℕ

/-- The part of a node that the leaf code works on. -/
structure LeafNode where
  headers : List EntryHeader
  area : List Cell

/-- `btree_leaf_init`. -/
def btreeLeafInit : LeafNode := ⟨[], []⟩

namespace LeafNode

variable (n : LeafNode)

def nkeys : ℕ := n.headers.length

/-- `btree_leaf_used_space`. -/
def usedSpace : ℕ := n.nkeys * sizeofEntryHeader + Extents.total Cell.size n.area

/-- The header of an entry and what is in the data area at its offset, if that is
metadata of the type the header says. -/
def slot (index : ℕ) : Option (EntryHeader × Cell) := do
  let hdr ← n.headers[index]?
  let cell ← itemAt Cell.size n.area hdr.headerOffset
  if cell.metax.type = hdr.metaType then some (hdr, cell) else none

end LeafNode

/-- `key_meta2_to_key_meta` and its like for types 3 and 4. -/
def keyMetaFull (keylen datalen prefixIdx prefixLen ptr seqno : ℕ) : KeyMeta :=
  { keylen, datalen, prefixIdx, prefixLen, ptr, seqno, compactMeta := false }

/-- `key_meta1_to_key_meta`, with the metadata of the entry before. -/
def keyMeta1ToKeyMeta (before : KeyMeta) (seqno : ℕ) : KeyMeta :=
  { before with seqno, compactMeta := true }

/-- `btree_leaf_get_meta`. -/
def btreeLeafGetMeta (n : LeafNode) : ℕ → Option KeyMeta
  | 0 => do
    let (_, cell) ← n.slot 0
    match cell.metax with
    | .type1 _ => none
    | .full _ keylen datalen prefixIdx prefixLen ptr seqno =>
      some (keyMetaFull keylen datalen prefixIdx prefixLen ptr seqno)
  | index + 1 => do
    let (_, cell) ← n.slot (index + 1)
    match cell.metax with
    | .type1 seqno => do
      let before ← btreeLeafGetMeta n index
      some (keyMeta1ToKeyMeta before seqno)
    | .full _ keylen datalen prefixIdx prefixLen ptr seqno =>
      some (keyMetaFull keylen datalen prefixIdx prefixLen ptr seqno)

/-- `get_key_prefix`: the bytes at the end of a chain of prefixes. -/
def getKeyPrefix (n : LeafNode) : ℕ → ℕ → Option Data
  | 0, _ => none
  | fuel + 1, index => do
    let m ← btreeLeafGetMeta n index
    if m.prefixLen ≠ 0 then getKeyPrefix n fuel m.prefixIdx
    else do
      let (_, cell) ← n.slot index
      some cell.key

/-- `key_info_t`. -/
structure KeyInfo where
  key : Data
  datalen : ℕ
  ptr : ℕ
  seqno : ℕ
  tombstone : Bool

/-- `btree_leaf_get_nth_key_info`. The bytes of a key are those the metadata
counts: a front and a rest of other lengths are not a key. -/
def btreeLeafGetNthKeyInfo (n : LeafNode) (index : ℕ) : Option KeyInfo := do
  let (hdr, cell) ← n.slot index
  let m ← btreeLeafGetMeta n index
  let source ← if m.prefixLen = 0 then some [] else getKeyPrefix n n.nkeys m.prefixIdx
  if m.prefixLen ≤ source.length ∧ m.prefixLen + cell.key.length = m.keylen then
    some { key := source.take m.prefixLen ++ cell.key, datalen := m.datalen, ptr := m.ptr,
           seqno := m.seqno, tombstone := hdr.tombstone }
  else none

/-- `btree_leaf_get_data_nth_key`: the bytes after the key. -/
def btreeLeafGetDataNthKey (n : LeafNode) (index : ℕ) : Option Data := do
  let (_, cell) ← n.slot index
  let m ← btreeLeafGetMeta n index
  if m.prefixLen + cell.key.length = m.keylen then some cell.data else none

/-! ## Encoding -/

/-- `build_key_prefix_int`. -/
def buildKeyPrefixInt (opt : SpaceOpt) (prevKey key : Data) (prevKeyIndex : ℕ)
    (prevMeta m : KeyMeta) : KeyMeta :=
  let part := getCommonPart opt prevKey key
  let prefixLen :=
    if part = 0 then 0
    else if 0 < prevMeta.prefixLen then
      if prevMeta.prefixLen < part then prevMeta.prefixLen else part
    else part
  let prefixIdx :=
    if part = 0 then 0 else if 0 < prevMeta.prefixLen then prevMeta.prefixIdx else prevKeyIndex
  let compactMeta :=
    decide (key.length = prevMeta.keylen ∧ m.datalen = prevMeta.datalen ∧
      prefixLen = prevMeta.prefixLen ∧ prefixIdx = prevMeta.prefixIdx ∧ m.ptr = 0 ∧
      prevMeta.prefixLen ≠ 0 ∧ opt.spaceOpDisabled = false)
  { m with prefixLen, prefixIdx, compactMeta }

/-- The metadata of an entry before its prefix is built. -/
def KeyInfo.baseMeta (info : KeyInfo) : KeyMeta :=
  { keylen := info.key.length, datalen := info.datalen, prefixIdx := 0, prefixLen := 0,
    ptr := info.ptr, seqno := info.seqno, compactMeta := false }

/-- `append_entry_to_tmp_buf`. -/
def appendEntryToTmpBuf (cfg : LeafConfig) (m : KeyMeta) (key data : Data) : Cell where
  metax := keyMetaToKeyMetax m
  key := key.drop m.prefixLen
  data := data.take (cfg.datalenInLeaf m.keylen m.datalen)

/-- The loop of `copy_impacted_keys_to_tmp_buf`, from entry `index` on, with as
many turns as there are entries left. It ends at the first entry that has no
prefix before and after. -/
def copyImpactedLoop (opt : SpaceOpt) (cfg : LeafConfig) (n : LeafNode) :
    ℕ → ℕ → ℕ → Data → KeyMeta → Option (List Cell)
  | 0, _, _, _, _ => some []
  | turns + 1, index, prevKeyIndex, prevKey, prevMeta => do
    let (hdr, _) ← n.slot index
    let info ← btreeLeafGetNthKeyInfo n index
    let old ← btreeLeafGetMeta n index
    let new := buildKeyPrefixInt opt prevKey info.key prevKeyIndex prevMeta info.baseMeta
    if hdr.metaType ≠ .type1 ∧ new.prefixLen = 0 ∧ old.prefixLen = 0 then some []
    else do
      let data ← btreeLeafGetDataNthKey n index
      let rest ← copyImpactedLoop opt cfg n turns (index + 1) (prevKeyIndex + 1) info.key new
      some (appendEntryToTmpBuf cfg new info.key data :: rest)

/-- `copy_impacted_keys_to_tmp_buf`. With no previous key, the first entry is
copied without a prefix. -/
def copyImpactedKeysToTmpBuf (opt : SpaceOpt) (cfg : LeafConfig) (n : LeafNode)
    (start prevKeyIndex : ℕ) (prev : Option (Data × KeyMeta)) : Option (List Cell) :=
  match prev with
  | some (prevKey, prevMeta) =>
    copyImpactedLoop opt cfg n (n.nkeys - start) start prevKeyIndex prevKey prevMeta
  | none =>
    if start < n.nkeys then do
      let info ← btreeLeafGetNthKeyInfo n start
      let data ← btreeLeafGetDataNthKey n start
      let rest ← copyImpactedLoop opt cfg n (n.nkeys - (start + 1)) (start + 1) 0 info.key
        info.baseMeta
      some (appendEntryToTmpBuf cfg info.baseMeta info.key data :: rest)
    else some []

/-- `get_key_meta_space_used`. -/
def getKeyMetaSpaceUsed (cfg : LeafConfig) (t : KeyMetaType) (m : KeyMeta) : ℕ :=
  t.size + (m.keylen - m.prefixLen) + cfg.datalenInLeaf m.keylen m.datalen

/-- The types of the copied entries are set in their headers. -/
def setMetaTypes : List EntryHeader → List Cell → List EntryHeader
  | hdr :: hdrs, cell :: cells => { hdr with metaType := cell.metax.type } :: setMetaTypes hdrs cells
  | hdrs, _ => hdrs

/-- The metadata `key_metax_to_key_meta` finds at the place of entry `index`. -/
def keyMetaxToKeyMeta (n : LeafNode) (metax : KeyMetax) (index : ℕ) : Option KeyMeta :=
  match metax with
  | .type1 seqno => do
    let m ← btreeLeafGetMeta n index
    some (keyMeta1ToKeyMeta m seqno)
  | .full _ keylen datalen prefixIdx prefixLen ptr seqno =>
    some (keyMetaFull keylen datalen prefixIdx prefixLen ptr seqno)

/-- The loop of `btree_leaf_adjust_offsets`. -/
def adjustOffsetsLoop (cfg : LeafConfig) : ℕ → ℕ → ℕ → LeafNode → Option LeafNode
  | 0, _, _, n => some n
  | turns + 1, index, offset, n => do
    let n := { n with headers := n.headers.modify index fun hdr =>
      { hdr with headerOffset := offset % 2 ^ 16 } }
    let hdr ← n.headers[index]?
    let cell ← itemAt Cell.size n.area offset
    if cell.metax.type = hdr.metaType then do
      let m ← keyMetaxToKeyMeta n cell.metax index
      adjustOffsetsLoop cfg turns (index + 1) (offset + getKeyMetaSpaceUsed cfg hdr.metaType m) n
    else none

/-- `btree_leaf_adjust_offsets`. -/
def btreeLeafAdjustOffsets (cfg : LeafConfig) (n : LeafNode) : Option LeafNode :=
  adjustOffsetsLoop cfg n.nkeys 0 0 n

/-- The metadata with its reference shifted, if it has one beyond `base`. -/
def KeyMetax.shift (base shift : ℤ) : KeyMetax → KeyMetax
  | .type1 seqno => .type1 seqno
  | .full t keylen datalen prefixIdx prefixLen ptr seqno =>
    .full t keylen datalen
      (if 0 < prefixLen ∧ base < prefixIdx then ((prefixIdx + shift) % 2 ^ 16).toNat
        else prefixIdx)
      prefixLen ptr seqno

/-- `btree_leaf_adjust_prefix_idx`. -/
def btreeLeafAdjustPrefixIdx (n : LeafNode) (index : ℕ) (base shift : ℤ) : Option LeafNode := do
  let (hdr, _) ← n.slot index
  let area ← modifyAt Cell.size
    (fun cell => { cell with metax := cell.metax.shift base shift }) n.area hdr.headerOffset
  some { n with area }

/-- `btree_leaf_adjust_prefix_idxes`, for `count` entries from `start` on. -/
def btreeLeafAdjustPrefixIdxes (base shift : ℤ) : ℕ → ℕ → LeafNode → Option LeafNode
  | 0, _, n => some n
  | count + 1, start, n => do
    let n ← btreeLeafAdjustPrefixIdx n start base shift
    btreeLeafAdjustPrefixIdxes base shift count (start + 1) n

/-- Headers and data area are copied into a node. A data area that is too large
is copied over the headers. -/
def LeafNode.store (cfg : LeafConfig) (n : LeafNode) : Option LeafNode :=
  if n.usedSpace ≤ cfg.nodesizeLessHdr then some n else none

/-- The data area up to the end of the entry before `index`. -/
def areaBefore (cfg : LeafConfig) (n : LeafNode) (index : ℕ) : Option (List Cell) :=
  match index with
  | 0 => some []
  | prev + 1 => do
    let (hdr, _) ← n.slot prev
    let m ← btreeLeafGetMeta n prev
    before Cell.size n.area (hdr.headerOffset + getKeyMetaSpaceUsed cfg hdr.metaType m)

/-- The data area from entry `index` on, which is copied in bulk. -/
def areaFrom (n : LeafNode) (index : ℕ) : Option (List Cell) :=
  if n.nkeys ≤ index then some []
  else do
    let hdr ← n.headers[index]?
    after Cell.size n.area hdr.headerOffset

/-! ## Operations -/

/-- A node that is put together in the temporary buffer, with the number of
entries whose references are up to date. -/
structure TmpNode where
  node : LeafNode
  itemsCopied : ℕ

/-- The key and the metadata of the entry before `index`, if there is one. -/
def entryBefore (n : LeafNode) (index : ℕ) : Option (Option (Data × KeyMeta)) :=
  match index with
  | 0 => some none
  | prev + 1 => do
    let prevInfo ← btreeLeafGetNthKeyInfo n prev
    let prevMeta ← btreeLeafGetMeta n prev
    some (some (prevInfo.key, prevMeta))

/-- The part of `btree_leaf_remove_key_index_int` that puts the new node together
in the temporary buffer. -/
def removeTmpNode (opt : SpaceOpt) (cfg : LeafConfig) (n : LeafNode) (index : ℕ) :
    Option TmpNode := do
  let before ← areaBefore cfg n index
  let prev ← entryBefore n index
  let impacted ← copyImpactedKeysToTmpBuf opt cfg n (index + 1) (index - 1) prev
  let bulk ← areaFrom n (index + 1 + impacted.length)
  some {
    node := {
      headers := n.headers.take index ++ setMetaTypes (n.headers.drop (index + 1)) impacted
      area := before ++ impacted ++ bulk }
    itemsCopied := index + impacted.length }

/-- `btree_leaf_remove_key_index`. -/
def btreeLeafRemoveKeyIndex (opt : SpaceOpt) (cfg : LeafConfig) (n : LeafNode) (index : ℕ) :
    Option LeafNode := do
  let tmp ← removeTmpNode opt cfg n index
  let stored ← tmp.node.store cfg
  let adjusted ← btreeLeafAdjustOffsets cfg stored
  btreeLeafAdjustPrefixIdxes index (-1) (adjusted.nkeys - tmp.itemsCopied) tmp.itemsCopied adjusted

/-- `btree_leaf_split` after entry `middleIndex`: the two leaves and the
separator. -/
def btreeLeafSplit (opt : SpaceOpt) (cfg : LeafConfig) (n : LeafNode) (middleIndex : ℕ) :
    Option (LeafNode × LeafNode × Data × ℕ) := do
  let hdr ← n.headers[middleIndex + 1]?
  let leftArea ← before Cell.size n.area hdr.headerOffset
  let left : LeafNode := ⟨n.headers.take (middleIndex + 1), leftArea⟩
  let impacted ← copyImpactedKeysToTmpBuf opt cfg n (middleIndex + 1) 0 none
  let bulk ← areaFrom n (middleIndex + 1 + impacted.length)
  let right : LeafNode :=
    ⟨setMetaTypes (n.headers.drop (middleIndex + 1)) impacted, impacted ++ bulk⟩
  let stored ← right.store cfg
  let adjusted ← btreeLeafAdjustOffsets cfg stored
  let right ← btreeLeafAdjustPrefixIdxes 0 (-(middleIndex + 1)) adjusted.nkeys 0 adjusted
  let last ← btreeLeafGetNthKeyInfo n middleIndex
  some (left, right, last.key, last.seqno)

end Zetascale.VarLeaf
