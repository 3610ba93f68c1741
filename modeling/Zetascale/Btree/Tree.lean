import Zetascale.Lib.ChunkChain
import Zetascale.Btree.Leaf

/-!
# The tree

The state of one `struct btree_raw`: its nodes by logical id, its overflow
nodes, the id of its root, the counter of logical ids and its snapshots. One
operation runs at a time and no callback fails, so the node cache, the locks
and the lists of modified nodes do not appear. `none` is a failed assertion, or
a node that is not there.
-/

namespace Zetascale.Btree

open Function

/-- The statuses an operation returns. -/
inductive Status
  | success
  | keyNotFound
  | failure
  | tooManySnapshots
  deriving DecidableEq

/-- The state of a tree. -/
structure Tree (κ : Type) where
  nodes : ℕ → Option (Node κ)
  ovnodes : ChunkChain.Heap UInt8
  rootid : ℕ
  logical_id_counter : ℕ
  /-- The sequence numbers of the snapshots, oldest first. -/
  snapshots : List ℕ

variable {κ : Type}

namespace Tree

/-- Changes one node. -/
def setNode (t : Tree κ) (id : ℕ) (n : Node κ) : Tree κ :=
  { t with nodes := update t.nodes id (some n) }

/-- `get_new_node` for a node of the tree: the first id of the counter. -/
def getNewNode (t : Tree κ) (n : Node κ) : Tree κ :=
  { t.setNode t.logical_id_counter n with logical_id_counter := t.logical_id_counter + 1 }

/-- A new tree, as `btree_raw_init` makes it: the root is an empty leaf. -/
def init : Tree κ where
  nodes := update (fun _ => none) 1 (some (.leaf 0 []))
  ovnodes := fun _ => none
  rootid := 1
  logical_id_counter := 2
  snapshots := []

end Tree

/-! ## Overflow data -/

section

variable (cfg : Config κ)

/-- `allocate_overflow_data`: the first new node, 0 for no data. -/
def allocateOverflowData (t : Tree κ) (data : Data) : ℕ × Tree κ :=
  if data = [] then (0, t)
  else
    let written :=
      ChunkChain.write cfg.ovdatasize data.length t.ovnodes t.logical_id_counter data
    (t.logical_id_counter, { t with ovnodes := written.1, logical_id_counter := written.2 })

/-- `delete_overflow_data`. -/
def deleteOverflowData (t : Tree κ) (ptr datalen : ℕ) : Option (Tree κ) :=
  if datalen ≤ cfg.ovdatasize then some { t with ovnodes := update t.ovnodes ptr none }
  else (ChunkChain.free datalen t.ovnodes ptr).map fun heap => { t with ovnodes := heap }

/-- `big_object`, for an entry. -/
def Entry.big (e : Entry κ) : Bool := cfg.bigObjectKd (cfg.keylen e.key) e.datalen

/-- The bytes of an entry's data that are in overflow nodes, when it is big. -/
def Entry.overflowLen (e : Entry κ) : ℕ :=
  e.datalen - cfg.btreeGetBigobjInleaf (cfg.keylen e.key) e.datalen

/-- Frees the overflow nodes of an entry, if it has any. -/
def freeEntryData (t : Tree κ) (e : Entry κ) : Option (Tree κ) :=
  if e.big cfg then deleteOverflowData cfg t e.ptr (e.overflowLen cfg) else some t

/-- `get_leaf_data_nth_key`: the data of an entry. -/
def getLeafDataNthKey (t : Tree κ) (e : Entry κ) : Option (Status × Data) :=
  if e.big cfg then
    if e.datalen = 0 then some (.success, [])
    else
      let rest := ChunkChain.read cfg.ovdatasize t.ovnodes e.datalen (e.overflowLen cfg) e.ptr
      if rest.2.1 ≠ 0 then some (.failure, [])
      else if rest.2.2 ≠ 0 then none
      else some (.success, e.inleaf ++ rest.1)
  else some (.success, e.inleaf)

/-- The end of `btree_leaf_insert_low`: writes an object in a leaf, over the
entry at the index or before it, and its overflow data. -/
def insertEntry (t : Tree κ) (entries : List (Entry κ)) (key : κ) (data : Data) (seqno : ℕ)
    (tombstone : Bool) (index : ℕ) (key_exists : Bool) : Option (Tree κ × List (Entry κ)) :=
  let keylen := cfg.keylen key
  if cfg.bigObjectKd keylen data.length then
    if data.length = 0 then none
    else
      let (ptr, allocated) :=
        allocateOverflowData cfg t (data.drop (cfg.btreeGetBigobjInleaf keylen data.length))
      if ptr = 0 then none
      else
        (btreeLeafUpdateKey cfg entries (Entry.make cfg key seqno tombstone data ptr) index
          key_exists).map fun changed => (allocated, changed)
  else
    (btreeLeafUpdateKey cfg entries (Entry.make cfg key seqno tombstone data 0) index
      key_exists).map fun changed => (t, changed)

/-- `btree_leaf_insert_low`: frees the overflow data of the entry that is
replaced, and writes the object. -/
def btreeLeafInsertLow (t : Tree κ) (entries : List (Entry κ)) (key : κ) (data : Data)
    (seqno : ℕ) (tombstone : Bool) (index : ℕ) (key_exists : Bool) :
    Option (Tree κ × List (Entry κ)) :=
  (if key_exists then (entries[index]?).bind (freeEntryData cfg t) else some t).bind fun freed =>
    insertEntry cfg freed entries key data seqno tombstone index key_exists

end

/-! ## Snapshots -/

/-- The binary search of `btree_snap_find_meta_index_low`. The source's `i_end`
is `stop - 1`. -/
def snapFindLoop (snapshots : List ℕ) (seqno : ℕ) : ℕ → ℕ → ℕ → Option ℕ
  | 0, _, _ => none
  | fuel + 1, i_start, stop =>
    if i_start < stop then
      let i_check := (i_start + stop - 1) / 2
      if seqno ≤ snapshots.getD i_check 0 then
        if i_check = 0 ∨ snapshots.getD (i_check - 1) 0 < seqno then some i_check
        else snapFindLoop snapshots seqno fuel i_start i_check
      else snapFindLoop snapshots seqno fuel (i_check + 1) stop
    else none

/-- `btree_snap_find_meta_index`: the snapshot a sequence number belongs to,
`none` in the active container. -/
def btreeSnapFindMetaIndex (snapshots : List ℕ) (seqno : ℕ) : Option ℕ :=
  match snapshots.getLast? with
  | none => none
  | some last =>
    if last < seqno then none
    else snapFindLoop snapshots seqno (snapshots.length + 1) 0 snapshots.length

/-- `btree_snap_create_meta`. -/
def btreeSnapCreateMeta {κ : Type} (cfg : Config κ) (t : Tree κ) (seqno : ℕ) :
    Status × Tree κ :=
  if cfg.maxSnapshots ≤ t.snapshots.length then (.tooManySnapshots, t)
  else (.success, { t with snapshots := t.snapshots ++ [seqno] })

/-- `btree_snap_delete_meta`. -/
def btreeSnapDeleteMeta {κ : Type} (t : Tree κ) (seqno : ℕ) : Status × Tree κ :=
  match btreeSnapFindMetaIndex t.snapshots seqno with
  | none => (.failure, t)
  | some index =>
    if t.snapshots.getD index 0 = seqno then
      (.success, { t with snapshots := t.snapshots.eraseIdx index })
    else (.failure, t)

end Zetascale.Btree
