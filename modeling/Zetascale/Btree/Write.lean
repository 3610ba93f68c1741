import Zetascale.Btree.Scavenge

/-!
# Writing and deleting single objects

`btree_raw_write`, `btree_raw_get` and the part of `btree_raw_delete` that
leaves a tombstone, with everything they call in `btree/btree_raw.c`: the
descent that splits full nodes on its way, the splits of leaves, non-leaves and
the root, and the insertion in a leaf.
-/

namespace Zetascale.Btree

/-- Which objects a write accepts: any, only new ones, only existing ones. -/
inductive WriteType
  | set
  | create
  | update
  deriving DecidableEq

/-- An object to be written, with its sequence number and whether it is a
tombstone (`INSERT_TOMBSTONE`). -/
structure Obj (κ : Type) where
  key : κ
  data : Data
  seqno : ℕ
  tombstone : Bool

variable {κ : Type} [LinearOrder κ] (cfg : Config κ)

/-! ### Non-leaves -/

/-- `is_node_full_non_leaf`: no room for one more key of maximal size. -/
def isNodeFullNonLeaf (keys : List (Sep κ)) : Bool :=
  decide (cfg.nodesizeLessHdr < vnodeUsedSpace cfg keys + (sizeofVkey + cfg.maxKeySize))

/-- The child at an index of a non-leaf. -/
def childAt (keys : List (Sep κ)) (rightmost index : ℕ) : ℕ :=
  match keys[index]? with
  | some s => s.ptr
  | none => rightmost

/-- `find_key_non_leaf`: the index of the child to follow. A node without keys
is only expected at the root. -/
def findKeyNonLeaf (keys : List (Sep κ)) (isRoot : Bool) (key : κ) (smeta : SeqFilter) :
    Option ℕ :=
  if keys = [] then if isRoot then some 0 else none
  else some (bsearchKeyLow (keys.map Sep.stuff) key smeta .latest).1

/-- `update_ptr`, or the change of `rightmost`: points the child at an index to
another node. -/
def updatePtr (keys : List (Sep κ)) (rightmost index ptr : ℕ) : List (Sep κ) × ℕ :=
  if index = keys.length then (keys, ptr)
  else (keys.modify index fun s => { s with ptr := ptr }, rightmost)

/-- `insert_key`. The place of the new separator is looked for with `seqno - 1`
in 64 bits. -/
def insertKey (keys : List (Sep κ)) (s : Sep κ) : Option (List (Sep κ)) :=
  let end_seqno := if s.seqno = 0 then 2 ^ 64 - 1 else s.seqno - 1
  let index := (bsearchKeyLow (keys.map Sep.stuff) s.key (.le end_seqno) .latest).1
  let changed := keys.take index ++ s :: keys.drop index
  if vnodeUsedSpace cfg changed ≤ cfg.nodesizeLessHdr then some changed else none

/-- The keys of `split_copy` that go to the left node, the promoted one
included. -/
def splitCopyCount (threshold : ℕ) : List (Sep κ) → ℕ → ℕ
  | [], _ => 0
  | s :: rest, nbytes =>
    if nbytes ≤ threshold then splitCopyCount threshold rest (nbytes + s.size cfg) + 1 else 0

/-! ### Splits -/

/-- `split_root`: a new root over the old one. -/
def splitRoot (t : Tree κ) (level : ℕ) : Tree κ :=
  { t.getNewNode (.nonleaf (level + 1) 0 [] t.rootid) with rootid := t.logical_id_counter }

/-- The part of a split that changes the parent: the child at `child_nkey` has
become two, the left one keeps its id. -/
def splitInParent (t : Tree κ) (parent child_nkey : ℕ) (s : Sep κ) (newId : ℕ) :
    Option (Tree κ) :=
  match t.nodes parent with
  | some (.nonleaf level next keys rightmost) => do
    let (keys', rightmost') := updatePtr keys rightmost child_nkey newId
    let inserted ← insertKey cfg keys' s
    some (t.setNode parent (.nonleaf level next inserted rightmost'))
  | _ => none

/-- `btree_msplit_child` for a non-leaf, with `split_copy`. -/
def msplitNonLeaf (t : Tree κ) (parent child_nkey child : ℕ) : Option (Tree κ) :=
  match t.nodes child with
  | some (.nonleaf level next keys rightmost) => do
    let count := splitCopyCount cfg (cfg.nodesizeLessHdr / 2) keys 0
    if count = 0 ∨ keys.length ≤ count then none
    else
      let promoted ← keys[count - 1]?
      let newId := t.logical_id_counter
      let made := t.getNewNode (.nonleaf level next (keys.drop count) rightmost)
      let cut := made.setNode child (.nonleaf level newId (keys.take (count - 1)) promoted.ptr)
      splitInParent cfg cut parent child_nkey { promoted with ptr := child } newId
  | _ => none

/-- One leaf split, as in the loop of `btree_msplit_child`: the tree, the last
entry of the left leaf and the id of the right one. -/
def splitLeaf (t : Tree κ) (parent child_nkey child : ℕ) (next : ℕ) (entries : List (Entry κ))
    (index : ℕ) : Option (Tree κ × Entry κ × ℕ) := do
  let last ← entries[index]?
  let newId := t.logical_id_counter
  let made := t.getNewNode (.leaf next (entries.drop (index + 1)))
  let cut := made.setNode child (.leaf newId (entries.take (index + 1)))
  let t' ← splitInParent cfg cut parent child_nkey ⟨last.key, last.seqno, child⟩ newId
  some (t', last, newId)

/-- The loop of `btree_msplit_child` for a leaf: splits until the object fits in
the leaf of its key, whose id is returned, or the parent is full (`none`). -/
def msplitLeaf (obj : Obj κ) : ℕ → Tree κ → ℕ → ℕ → ℕ → Option (Tree κ × Option ℕ)
  | 0, _, _, _, _ => none
  | fuel + 1, t, parent, child_nkey, child =>
    match t.nodes child, t.nodes parent with
    | some (.leaf next entries), some (.nonleaf _ _ keys _) => do
      let index ← btreeLeafFindSplitIdx cfg entries
      if isNodeFullNonLeaf cfg keys then some (t, none)
      else
        let (t', last, newId) ← splitLeaf cfg t parent child_nkey child next entries index
        let right := decide (last.key < obj.key)
        let following := if right then newId else child
        let here := if right then entries.drop (index + 1) else entries.take (index + 1)
        let (index, found) := btreeLeafFindKey here obj.key .any
        if btreeLeafIsFullIndex cfg here obj.key obj.data.length found index then
          msplitLeaf obj fuel t' parent (if right then child_nkey + 1 else child_nkey) following
        else some (t', some following)
    | _, _ => none

/-! ### The descent -/

/-- `is_leaf_key_active`: the version is in no snapshot. -/
def isLeafKeyActive (t : Tree κ) (entries : List (Entry κ)) (index : ℕ) : Bool :=
  match entries[index]? with
  | some e => btreeSnapFindMetaIndex t.snapshots e.seqno = none
  | none => false

/-- Whether the object replaces the version found: a tombstone never does, and
no object replaces a version that is in a snapshot. -/
def isUpdate (t : Tree κ) (obj : Obj κ) (entries : List (Entry κ)) (index : ℕ) (found : Bool) :
    Bool :=
  found && !obj.tombstone && isLeafKeyActive t entries index

/-- Where one pass of the descent ends: at a leaf with room for the object, or
at a full parent, after which the write starts again from the root. -/
inductive Descent (κ : Type)
  | leaf (t : Tree κ) (id index : ℕ) (key_found is_update : Bool)
  | restart (t : Tree κ)

/-- The tree and the place of a full node's parent; a full root gets a new root
above it. -/
def splitParent (t : Tree κ) (parent : Option (ℕ × ℕ)) (id level : ℕ) :
    Option (Tree κ × ℕ × ℕ) :=
  if id = t.rootid then some (splitRoot t level, t.logical_id_counter, 0)
  else parent.map fun p => (t, p)

/-- The search for the child to follow in a node of the tree. -/
def searchNode (t : Tree κ) (id : ℕ) (key : κ) (smeta : SeqFilter) : Option (ℕ × ℕ) :=
  match t.nodes id with
  | some (.nonleaf _ _ keys rightmost) => do
    let index ← findKeyNonLeaf keys (id == t.rootid) key smeta
    some (index, childAt keys rightmost index)
  | _ => none

/-- The loop of `btree_raw_mwrite_low` from `id` down. `parent` is the node
above and the index of `id` in it. -/
def descend (obj : Obj κ) : ℕ → Tree κ → Option (ℕ × ℕ) → ℕ → Option (Descent κ)
  | 0, _, _, _ => none
  | fuel + 1, t, parent, id =>
    match t.nodes id with
    | none => none
    | some (.leaf _ entries) =>
      let (index, found) := btreeLeafFindKey entries obj.key .any
      let is_update := isUpdate t obj entries index found
      if btreeLeafIsFullIndex cfg entries obj.key obj.data.length is_update index then do
        let (t', above, child_nkey) ← splitParent t parent id 0
        let (split, leaf) ← msplitLeaf cfg obj entries.length t' above child_nkey id
        match leaf with
        | none => some (.restart split)
        | some leaf => do
          -- the parent has to lead to the leaf that the split chose
          let (_, child) ← searchNode split above obj.key .any
          match split.nodes leaf with
          | some (.leaf _ here) =>
            if child = leaf then
              let (index', found') := btreeLeafFindKey here obj.key .any
              some (.leaf split leaf index' found' is_update)
            else none
          | _ => none
      else some (.leaf t id index found is_update)
    | some (.nonleaf level _ keys rightmost) => do
      let index ← findKeyNonLeaf keys (id == t.rootid) obj.key .any
      if isNodeFullNonLeaf cfg keys then
        let (t', above, child_nkey) ← splitParent t parent id level
        let split ← msplitNonLeaf cfg t' above child_nkey id
        let (_, child) ← searchNode split above obj.key .any
        let here := if child = id then id else t'.logical_id_counter
        let (index', child') ← searchNode split here obj.key .any
        descend obj fuel split (some (here, index')) child'
      else descend obj fuel t (some (id, index)) (childAt keys rightmost index)

/-! ### Inserting in the leaf -/

/-- `btree_insert_keys_leaf` for one object whose place in the leaf is known. -/
def insertKeysLeaf (t : Tree κ) (obj : Obj κ) (write_type : WriteType) (id next : ℕ)
    (entries : List (Entry κ)) (index : ℕ) (key_exists is_update : Bool) :
    Option (Tree κ × Status) :=
  if write_type = .update ∧ key_exists = false ∨ write_type = .create ∧ key_exists = true then
    some (t.setNode id (.leaf next entries), .keyNotFound)
  else do
    let (t', changed) ← btreeLeafInsertLow cfg t entries obj.key obj.data obj.seqno obj.tombstone
      index is_update
    some (t'.setNode id (.leaf next changed), .success)

/-- The end of `btree_raw_mwrite_low`, at the leaf of the key: scavenge, then
insert. -/
def finishWrite (t : Tree κ) (obj : Obj κ) (write_type : WriteType) (id index : ℕ)
    (key_found is_update : Bool) : Option (Tree κ × Status) :=
  match t.nodes id with
  | some (.leaf next entries) => do
    let (t', kept, scavenged) ← scavengeNode cfg t entries
    let (index', found', is_update') :=
      if scavenged = 0 then (index, key_found, is_update)
      else
        let again := btreeLeafFindKey kept obj.key .any
        (again.1, again.2, is_update && again.2)
    insertKeysLeaf cfg t' obj write_type id next kept index'
      (found' && !btreeLeafIsKeyTombstoned kept index') is_update'
  | _ => none

/-- The `level` of the root. -/
def Tree.rootLevel (t : Tree κ) : ℕ :=
  match t.nodes t.rootid with
  | some n => n.level
  | none => 0

/-- The passes of `btree_raw_mwrite_low`. -/
def mwritePasses (obj : Obj κ) (write_type : WriteType) : ℕ → Tree κ → Option (Tree κ × Status)
  | 0, _ => none
  | fuel + 1, t =>
    match descend cfg obj (t.rootLevel + 1) t none t.rootid with
    | none => none
    | some (.restart t') => mwritePasses obj write_type fuel t'
    | some (.leaf t' id index key_found is_update) =>
      finishWrite cfg t' obj write_type id index key_found is_update

/-- `btree_raw_write`: `btree_raw_mwrite_low` for one object. Every pass that
starts again has made the leaf of the key smaller, and no leaf has more entries
than bytes. -/
def btreeRawWrite (t : Tree κ) (obj : Obj κ) (write_type : WriteType) :
    Option (Tree κ × Status) :=
  mwritePasses cfg obj write_type (cfg.nodesizeLessHdr + 1) t

/-! ### Looking up and deleting -/

/-- The loop of `btree_raw_find`: the leaf for the key. -/
def findLeaf (t : Tree κ) (key : κ) (smeta : SeqFilter) : ℕ → ℕ → Option ℕ
  | 0, _ => none
  | fuel + 1, id =>
    match t.nodes id with
    | none => none
    | some (.leaf ..) => some id
    | some (.nonleaf _ _ keys rightmost) =>
      findLeaf t key smeta fuel
        (childAt keys rightmost (bsearchKeyLow (keys.map Sep.stuff) key smeta .latest).1)

/-- `btree_raw_get`. -/
def btreeRawGet (t : Tree κ) (key : κ) (smeta : SeqFilter) : Option (Status × Data) := do
  let id ← findLeaf t key smeta (t.rootLevel + 1) t.rootid
  match t.nodes id with
  | some (.leaf _ entries) =>
    let (index, found) := btreeLeafFindKey entries key smeta
    match entries[index]?, found with
    | some e, true => if e.tombstone then some (.keyNotFound, []) else getLeafDataNthKey cfg t e
    | _, _ => some (.keyNotFound, [])
  | _ => none

/-- `btree_raw_delete` without `FORCE_DELETE`: a tombstone over the version
found, in its leaf if there is room (`insert_tombstone_optimized`) and by a
write otherwise (`insert_tombstone_unoptimized`). -/
def btreeRawDelete (t : Tree κ) (key : κ) (seqno : ℕ) : Option (Tree κ × Status) := do
  let id ← findLeaf t key .any (t.rootLevel + 1) t.rootid
  match t.nodes id with
  | some (.leaf next entries) =>
    let (index, found) := btreeLeafFindKey entries key .any
    if found && !btreeLeafIsKeyTombstoned entries index then
      let obj : Obj κ := ⟨key, [], seqno, true⟩
      if btreeLeafIsFullIndex cfg entries key 0 false index then btreeRawWrite cfg t obj .set
      else do
        let (t', kept, scavenged) ← scavengeNode cfg t entries
        let index' := if scavenged = 0 then index else (btreeLeafFindKey kept key .any).1
        insertKeysLeaf cfg t' obj .set id next kept index'
          (!btreeLeafIsKeyTombstoned kept index') false
    else some (t, .keyNotFound)
  | _ => none

end Zetascale.Btree
