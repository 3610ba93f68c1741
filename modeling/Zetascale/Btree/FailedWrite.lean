import Zetascale.Btree.LargeObjects
import Zetascale.Btree.Refine

/-!
# A write that fails

What one failure does to the replacement of an object: `btree_leaf_insert_low`,
`delete_overflow_data` and `allocate_overflow_data` with the reads and the new
nodes that can fail, the lists of modified and deleted nodes of the thread, and
`deref_l1cache`, which writes them out. The tree is there twice: as the flash has
it, and as the write has it in memory. The nodes that the descent has changed and
the overflow nodes that it has deleted (splits, scavenging) are in the lists when
the write comes to the leaf. Two failures stop the program: `savepersistent` aborts
when the ids of new nodes run out and more cannot be had, and after the last
`delete_node_cb` has failed the nodes written are released a second time, which
`btree_raw_mput` notices (`assert(!dbg_referenced)`).
-/

namespace Zetascale.Btree

open Function List Option ChunkChain

/-- What is written out as a whole. -/
inductive Page
  /-- The meta node with the id of the root. -/
  | root
  | node (id : ℕ)
  | overflow (id : ℕ)
  deriving DecidableEq

/-- The one call that fails. -/
inductive Failure
  | none
  /-- Reading a node on the way to the leaf. -/
  | path
  /-- Reading the overflow node number `k` of the old data. -/
  | chainNode (k : ℕ)
  /-- `get_new_node` for the overflow node number `j` of the new data. -/
  | newNode (j : ℕ)
  /-- `write_node_cb` for a batch, of which some pages are written all the same. -/
  | writeNodes (batch : ℕ) (landed : Page → Bool)
  /-- `delete_node_cb` for the deleted node number `i`. -/
  | deleteNode (i : ℕ)

namespace Failure

/-- The overflow nodes that cannot be read. -/
def reads : Failure → ℕ → Bool
  | .chainNode k, i => i == k
  | _, _ => false

/-- The overflow nodes that cannot be made. -/
def creates : Failure → ℕ → Bool
  | .newNode j, i => i == j
  | _, _ => false

end Failure

/-- The lists of a thread. -/
structure Work where
  /-- `modified_metanodes` and `modified_nodes`. -/
  modified : List Page
  /-- `deleted_nodes`, of which a write has overflow nodes only. -/
  deleted : List ℕ
  /-- `deleted_ovnodes_id`. -/
  deletedOv : List ℕ

/-- `MPUT_BATCH_SIZE`. -/
def mputBatchSize : ℕ := 128

/-- All nodes to be deleted, in the order of the calls. -/
def Work.drops (work : Work) : List ℕ := work.deleted ++ work.deletedOv

/-- A single overflow node is deleted: `deleted_nodes` if it is in the cache,
`deleted_ovnodes_id` otherwise. -/
def Work.dropSingle (work : Work) (cached : Bool) (id : ℕ) : Work :=
  if cached then { work with deleted := work.deleted ++ [id] }
  else { work with deletedOv := work.deletedOv ++ [id] }

/-- The pages in the order in which they are written, each once. -/
def Work.pages (work : Work) : List Page :=
  (work.modified.filter (· == .root)).eraseDups ++ (work.modified.filter (· != .root)).eraseDups

/-- The pages written when a batch fails. -/
def landedPages (batch : ℕ) (landed : Page → Bool) (pages : List Page) : List Page :=
  let before := mputBatchSize * batch
  pages.take before ++ ((pages.drop before).take mputBatchSize).filter landed

variable {κ : Type}

section

variable (cfg : Config κ)

/-- The tree without some overflow nodes. -/
def Tree.dropOverflow (t : Tree κ) (ids : List ℕ) : Tree κ :=
  { t with ovnodes := fun id => if id ∈ ids then none else t.ovnodes id }

/-- Writes a page, as it is in memory. -/
def Tree.putPage (mem t : Tree κ) : Page → Tree κ
  | .root => { t with rootid := mem.rootid }
  | .node id => { t with nodes := update t.nodes id (mem.nodes id) }
  | .overflow id => { t with ovnodes := update t.ovnodes id (mem.ovnodes id) }

/-- Writes pages one after the other. -/
def Tree.putPages (mem t : Tree κ) (pages : List Page) : Tree κ := pages.foldl mem.putPage t

/-! ## The leaf -/

/-- `delete_overflow_data` for the entry that is replaced. A single overflow node is
not read, and goes to a list of its own when it is not `cached`. -/
def freeEntryFailing (failure : Failure) (cached : ℕ → Bool) (mem : Tree κ) (work : Work)
    (e : Entry κ) : Tree κ × Work × Bool :=
  if e.big cfg then
    if e.overflowLen cfg ≤ cfg.ovdatasize then
      (mem.dropOverflow [e.ptr], work.dropSingle (cached e.ptr) e.ptr, true)
    else
      let followed := followFailing failure.reads mem.ovnodes (e.overflowLen cfg) 0 e.ptr
      (mem.dropOverflow followed.1, { work with deleted := work.deleted ++ followed.1 }, followed.2)
  else (mem, work, true)

/-- `allocate_overflow_data`. A node that cannot be had stops the program
(`savepersistent`). -/
def allocateFailing (failure : Failure) (mem : Tree κ) (work : Work) (data : Data) :
    Option (ℕ × Tree κ × Work) :=
  let (ptr, mem') := allocateOverflowData cfg mem data
  let count := mem'.logical_id_counter - mem.logical_id_counter
  if (range count).any failure.creates then none
  else some (ptr, mem', { work with
    modified := work.modified ++ (range' mem.logical_id_counter count).map .overflow })

/-- The data of an object is stored. -/
def storeObjectFailing (failure : Failure) (mem : Tree κ) (work : Work) (obj : Obj κ) :
    Option (Tree κ × Work × Entry κ) :=
  let keylen := cfg.keylen obj.key
  if cfg.bigObjectKd keylen obj.data.length then
    if obj.data.length = 0 then none
    else
      (allocateFailing cfg failure mem work
          (obj.data.drop (cfg.btreeGetBigobjInleaf keylen obj.data.length))).bind
        fun (ptr, mem', work') =>
          if ptr = 0 then none
          else some (mem', work', obj.entry cfg ptr)
  else some (mem, work, obj.entry cfg 0)

/-- The beginning of `btree_leaf_insert_low`: the overflow nodes of the version that
is replaced. -/
def freeOldFailing (failure : Failure) (cached : ℕ → Bool) (mem : Tree κ) (work : Work)
    (entries : List (Entry κ)) (index : ℕ) (is_update : Bool) : Option (Tree κ × Work × Bool) :=
  if is_update then (entries[index]?).map (freeEntryFailing cfg failure cached mem work)
  else some (mem, work, true)

/-- `btree_leaf_insert_low`. The leaf is in the list of modified nodes whatever
happens. -/
def insertLowFailing (failure : Failure) (cached : ℕ → Bool) (mem : Tree κ) (work : Work)
    (id next : ℕ) (entries : List (Entry κ)) (obj : Obj κ) (index : ℕ) (is_update : Bool) :
    Option (Tree κ × Work × Bool) :=
  let work := { work with modified := work.modified ++ [.node id] }
  (freeOldFailing cfg failure cached mem work entries index is_update).bind
      fun (mem, work, success) =>
    if success then
      (storeObjectFailing cfg failure mem work obj).bind fun (mem, work, e) =>
        (btreeLeafUpdateKey cfg entries e index is_update).map fun changed =>
          (mem.setNode id (.leaf next changed), work, true)
    else some (mem, work, false)

/-! ## Writing out -/

/-- `deref_l1cache`: what the flash has afterwards, and whether it succeeds. The
status is that of the last call; a deletion that fails before it is not noticed.
Without transactions nothing is rolled back. -/
def derefL1cache (trxenabled : Bool) (failure : Failure) (flash mem : Tree κ) (work : Work) :
    Option (Tree κ × Bool) :=
  let kept := { flash with logical_id_counter := mem.logical_id_counter }
  let written := mem.putPages kept work.pages
  match failure with
  | .writeNodes batch landed =>
    if mputBatchSize * batch < work.pages.length then
      some (if trxenabled then kept else mem.putPages kept (landedPages batch landed work.pages),
        false)
    else some (written.dropOverflow work.drops, true)
  | .deleteNode i =>
    -- the nodes written are released already, and `btree_io_error_cleanup` releases them again
    if i + 1 = work.drops.length then none
    else some (written.dropOverflow (work.drops.eraseIdx i), true)
  | _ => some (written.dropOverflow work.drops, true)

/-- The end of `btree_raw_mwrite_low` for one object, from the leaf on: the lists are
written out also when the insertion has failed. A failure on the way to the leaf
drops them (`btree_io_error_cleanup`). -/
def overwrite (trxenabled : Bool) (failure : Failure) (cached : ℕ → Bool) (flash mem : Tree κ)
    (work : Work) (id next : ℕ) (entries : List (Entry κ)) (obj : Obj κ) (index : ℕ)
    (is_update : Bool) : Option (Tree κ × Bool) :=
  match failure with
  | .path => some ({ flash with logical_id_counter := mem.logical_id_counter }, false)
  | _ =>
    (insertLowFailing cfg failure cached mem work id next entries obj index is_update).bind
      fun (mem, work, success) =>
        (derefL1cache trxenabled failure flash mem work).map fun (flash, flushed) =>
          (flash, success && flushed)

end

/-! ## What is read -/

variable {t : Tree κ} {h next : ℕ} {s : Slot (Pos κ)} {entries : List (Entry κ)} {e : Entry κ}
  {data : Data} {cfg : Config κ}

section

variable {t' : Tree κ} {key : κ}

/-- A tree has all that another one has, and perhaps more. -/
structure Tree.Extends (t t' : Tree κ) : Prop where
  rootid : t'.rootid = t.rootid
  nodes : ∀ id, t.nodes id ≠ none → t'.nodes id = t.nodes id
  ovnodes : ∀ id, t.ovnodes id ≠ none → t'.ovnodes id = t.ovnodes id

/-- Data that is complete is read in the same way where there are more overflow
nodes. -/
theorem getLeafDataNthKey_extends (more : ∀ id, t.ovnodes id ≠ none → t'.ovnodes id = t.ovnodes id)
    (reads : getLeafDataNthKey cfg t e = some (.success, data)) :
    getLeafDataNthKey cfg t' e = some (.success, data) := by
  unfold getLeafDataNthKey at reads ⊢
  split_ifs at reads ⊢ with big empty
  · exact reads
  · have complete : (read cfg.ovdatasize t.ovnodes e.datalen (e.overflowLen cfg)
        e.ptr).2.1 = 0 := by
      by_contra missing
      simp [missing] at reads
    rw [read_extends cfg.ovdatasize more complete]
    exact reads
  · exact reads

/-- The data of a big object is not read when its first overflow node is gone. -/
theorem getLeafDataNthKey_of_gone (big : e.big cfg = true) (nonempty : e.datalen ≠ 0)
    (gone : t.ovnodes e.ptr = none) : getLeafDataNthKey cfg t e = some (.failure, []) := by
  simp [getLeafDataNthKey, big, nonempty, read_of_none cfg.ovdatasize gone,
    Entry.overflowLen_ne_zero nonempty]

variable [LinearOrder κ]

/-- The descent to a leaf is the same where there are more nodes. -/
theorem Tree.Extends.findLeaf (extension : t.Extends t') {smeta : SeqFilter} {fuel id leaf : ℕ}
    (found : findLeaf t key smeta fuel id = some leaf) :
    findLeaf t' key smeta fuel id = some leaf := by
  induction fuel generalizing id with
  | zero => cases found
  | succ fuel ih =>
    unfold Btree.findLeaf at found ⊢
    cases stored : t.nodes id with
    | none => simp [stored] at found
    | some node =>
      have same := extension.nodes id (by simp [stored])
      rw [same, stored]
      rw [stored] at found
      cases node with
      | leaf _ _ => exact found
      | nonleaf _ _ keys rightmost => exact ih found

theorem Shape.dropOverflow (shape : Shape t h) (ids : List ℕ) : Shape (t.dropOverflow ids) h :=
  { shape with }

/-- A value is read in the same way where there are more nodes. -/
theorem Tree.Extends.btreeRawGet (extension : t.Extends t') {smeta : SeqFilter}
    (reads : btreeRawGet cfg t key smeta = some (.success, data)) :
    btreeRawGet cfg t' key smeta = some (.success, data) := by
  simp only [Btree.btreeRawGet, bind_eq_bind] at reads ⊢
  obtain ⟨id, found, reads⟩ := bind_eq_some_iff.mp reads
  have level : t'.rootLevel = t.rootLevel := by
    have root : t.nodes t.rootid ≠ none := by
      intro missing
      simp [Btree.findLeaf, missing] at found
    rw [Tree.rootLevel, Tree.rootLevel, extension.rootid, extension.nodes _ root]
  rw [level, extension.rootid, extension.findLeaf found, bind_some]
  have stored : t.nodes id ≠ none := by
    intro missing
    simp [missing] at reads
  rw [extension.nodes id stored]
  split at reads
  · split at reads
    · split_ifs at reads ⊢ with dead
      · exact reads
      · exact getLeafDataNthKey_extends extension.ovnodes reads
    · cases reads
  · cases reads

/-- What a key reads as is what the latest version in its leaf reads as. -/
theorem btreeRawGet_leaf (shape : Shape t h) (covers : Covers (t.level h) ⟨key, ⊤⟩ s)
    (stored : t.nodes s.id = some (.leaf next entries))
    (latest : latestIn entries key = some e) (alive : e.tombstone = false) :
    btreeRawGet cfg t key .any = getLeafDataNthKey cfg t e := by
  obtain ⟨leaf, found, covers'⟩ := shape.findLeaf_root key .any
  obtain rfl := covers.unique covers'
  obtain ⟨isFound, index⟩ := btreeLeafFindKey_latest (shape.leaf_sorted covers.mem stored) key
  simp [btreeRawGet, found, stored, isFound, latest, index e latest, alive]

end

/-! ## The lists -/

variable {flash mem : Tree κ} {work work' : Work} {ids : List ℕ}

/-- The lists of a thread have all that the memory has and the flash has not. -/
structure Tracks (flash mem : Tree κ) (work : Work) : Prop where
  rootid : .root ∉ work.modified → mem.rootid = flash.rootid
  nodes : ∀ id, .node id ∉ work.modified → mem.nodes id = flash.nodes id
  ovnodes : ∀ id, .overflow id ∉ work.modified → id ∉ work.drops →
    mem.ovnodes id = flash.ovnodes id
  dropped : ∀ id ∈ work.drops, mem.ovnodes id = none ∧ id < mem.logical_id_counter

theorem putPages_spec (mem t : Tree κ) (pages : List Page) :
    (mem.putPages t pages).rootid = (if .root ∈ pages then mem.rootid else t.rootid) ∧
    (∀ id, (mem.putPages t pages).nodes id =
      if .node id ∈ pages then mem.nodes id else t.nodes id) ∧
    ∀ id, (mem.putPages t pages).ovnodes id =
      if .overflow id ∈ pages then mem.ovnodes id else t.ovnodes id := by
  unfold Tree.putPages
  induction pages generalizing t with
  | nil => simp
  | cons page pages ih =>
    obtain ⟨rootid, nodes, ovnodes⟩ := ih (mem.putPage t page)
    refine ⟨rootid.trans ?_, fun id => (nodes id).trans ?_, fun id => (ovnodes id).trans ?_⟩
    · cases page <;> simp [Tree.putPage]
    · cases page <;> simp [Tree.putPage, update_apply]
      grind
    · cases page <;> simp [Tree.putPage, update_apply]
      grind

theorem Work.mem_pages {page : Page} : page ∈ work.pages ↔ page ∈ work.modified := by
  simp only [Work.pages, mem_append, mem_eraseDups, mem_filter, beq_iff_eq, bne_iff_ne]
  tauto

theorem Work.drops_deleted (work : Work) (ids : List ℕ) :
    { work with deleted := work.deleted ++ ids : Work }.drops.Perm (work.drops ++ ids) := by
  simp only [Work.drops, append_assoc]
  exact perm_append_comm.append_left work.deleted

theorem Work.dropSingle_spec (work : Work) (cached : Bool) (id : ℕ) :
    (work.dropSingle cached id).modified = work.modified ∧
      ((work.dropSingle cached id).drops).Perm (work.drops ++ [id]) := by
  cases cached with
  | false => exact ⟨rfl, by simp [Work.dropSingle, Work.drops]⟩
  | true => exact ⟨rfl, work.drops_deleted [id]⟩

/-- Once all pages are written and some of the nodes are deleted, the flash has the
tree that is in memory, and at most overflow nodes that are not in use. -/
theorem Tracks.written (tracks : Tracks flash mem work) {drops : List ℕ}
    (fewer : drops ⊆ work.drops) :
    let done := (mem.putPages { flash with logical_id_counter := mem.logical_id_counter }
      work.pages).dropOverflow drops
    mem.Extends done ∧ done.nodes = mem.nodes ∧ (work.drops ⊆ drops → done.ovnodes = mem.ovnodes) := by
  obtain ⟨rootid, nodes, ovnodes⟩ := putPages_spec mem
    { flash with logical_id_counter := mem.logical_id_counter } work.pages
  simp only [Work.mem_pages] at rootid nodes ovnodes
  have kept : ∀ id, id ∉ work.drops → (mem.putPages
      { flash with logical_id_counter := mem.logical_id_counter } work.pages).ovnodes id =
        mem.ovnodes id := by
    intro id notDropped
    rw [ovnodes]
    split_ifs with modified
    · rfl
    · exact (tracks.ovnodes id modified notDropped).symm
  have same : ∀ id, ((mem.putPages { flash with logical_id_counter := mem.logical_id_counter }
      work.pages).dropOverflow drops).nodes id = mem.nodes id := by
    intro id
    simp only [Tree.dropOverflow, nodes]
    split_ifs with modified
    · rfl
    · exact (tracks.nodes id modified).symm
  refine ⟨⟨?_, fun id _ => same id, ?_⟩, funext same, ?_⟩
  · simp only [Tree.dropOverflow, rootid]
    split_ifs with modified
    · rfl
    · exact (tracks.rootid modified).symm
  · intro id present
    have notDropped : id ∉ work.drops := fun dropped => present (tracks.dropped id dropped).1
    simp only [Tree.dropOverflow, if_neg fun mem => notDropped (fewer mem)]
    exact kept id notDropped
  · intro all
    funext id
    simp only [Tree.dropOverflow]
    split_ifs with dropped
    · exact (tracks.dropped id (fewer dropped)).1.symm
    · exact kept id fun mem => dropped (all mem)

/-- A page that the flash does not have yet. -/
def Page.Fresh (flash : Tree κ) : Page → Prop
  | .root => False
  | .node id => flash.nodes id = none
  | .overflow id => flash.ovnodes id = none

/-- Pages that the flash did not have change nothing on it. -/
theorem putPages_fresh {pages : List Page} (fresh : ∀ page ∈ pages, page.Fresh flash) (counter : ℕ) :
    flash.Extends (mem.putPages { flash with logical_id_counter := counter } pages) := by
  obtain ⟨rootid, nodes, ovnodes⟩ :=
    putPages_spec mem { flash with logical_id_counter := counter } pages
  refine ⟨?_, fun id present => ?_, fun id present => ?_⟩
  · rw [rootid, if_neg (fresh .root)]
  · rw [nodes, if_neg fun written => present (fresh (.node id) written)]
  · rw [ovnodes, if_neg fun written => present (fresh (.overflow id) written)]

section

variable (tracks : Tracks flash mem work)

include tracks

theorem Tracks.setNode (id : ℕ) (n : Node κ)
    (listed : .node id ∈ work.modified) : Tracks flash (mem.setNode id n) work where
  __ := tracks
  nodes := fun id' unlisted => by
    have other : id' ≠ id := fun same => unlisted (same ▸ listed)
    rw [setNode_nodes, if_neg other]
    exact tracks.nodes id' unlisted

theorem Tracks.list (pages : List Page) :
    Tracks flash mem { work with modified := work.modified ++ pages } where
  rootid := fun unlisted => tracks.rootid (mt (mem_append_left _) unlisted)
  nodes := fun id unlisted => tracks.nodes id (mt (mem_append_left _) unlisted)
  ovnodes := fun id unlisted => tracks.ovnodes id (mt (mem_append_left _) unlisted)
  dropped := tracks.dropped

theorem Tracks.drop
    (below : ∀ id ∈ ids, id < mem.logical_id_counter) (same : work'.modified = work.modified)
    (drops : work'.drops.Perm (work.drops ++ ids)) :
    Tracks flash (mem.dropOverflow ids) work' where
  rootid := same ▸ tracks.rootid
  nodes := same ▸ tracks.nodes
  ovnodes := fun id unlisted notDropped => by
    rw [drops.mem_iff, mem_append, not_or] at notDropped
    simp only [Tree.dropOverflow, if_neg notDropped.2]
    exact tracks.ovnodes id (same ▸ unlisted) notDropped.1
  dropped := fun id dropped => by
    simp only [Tree.dropOverflow]
    rcases mem_append.mp (drops.mem_iff.mp dropped) with before | now
    · refine ⟨?_, (tracks.dropped id before).2⟩
      split_ifs
      · rfl
      · exact (tracks.dropped id before).1
    · exact ⟨if_pos now, below id now⟩

/-- Overflow nodes are made. -/
theorem Tracks.create {heap : ChunkChain.Heap UInt8}
    {count counter : ℕ} (grows : mem.logical_id_counter ≤ counter)
    (others : ∀ id, id < mem.logical_id_counter ∨ mem.logical_id_counter + count ≤ id →
      heap id = mem.ovnodes id) :
    Tracks flash { mem with ovnodes := heap, logical_id_counter := counter }
      { work with modified := work.modified ++
          (range' mem.logical_id_counter count).map .overflow } where
  rootid := (tracks.list _).rootid
  nodes := (tracks.list _).nodes
  ovnodes := fun id unlisted notDropped => by
    have outside : id < mem.logical_id_counter ∨ mem.logical_id_counter + count ≤ id := by
      by_contra inside
      apply unlisted
      rw [List.mem_append, List.mem_map]
      exact .inr ⟨id, mem_range'_1.mpr (by omega), rfl⟩
    exact (others id outside).trans ((tracks.list _).ovnodes id unlisted notDropped)
  dropped := fun id dropped => by
    obtain ⟨gone, less⟩ := tracks.dropped id dropped
    exact ⟨(others id (.inl less)).trans gone, less.trans_le grows⟩

end

/-! ## The old data -/

variable {failure : Failure} {cached : ℕ → Bool}

/-- The overflow nodes of an entry that are read one by one to be deleted. -/
def Entry.followed (cfg : Config κ) (e : Entry κ) : Prop :=
  e.big cfg = true ∧ cfg.ovdatasize < e.overflowLen cfg

/-- Deleting the overflow nodes of an entry gets as far as they can be read. -/
theorem freeEntryFailing_spec (failure : Failure) (cached : ℕ → Bool)
    (tracks : Tracks flash mem work) (keeps : e.Keeps cfg mem.ovnodes ids data)
    (below : ∀ id ∈ ids, id < mem.logical_id_counter)
    {k : ℕ} (before : e.followed cfg → ∀ i < k, failure.reads i = false)
    (strikes : e.followed cfg → k < ids.length → failure.reads k = true)
    (all : ¬ e.followed cfg → ids.length ≤ k) :
    ∃ work', freeEntryFailing cfg failure cached mem work e =
        (mem.dropOverflow (ids.take k), work', decide (ids.length ≤ k)) ∧
      work'.modified = work.modified ∧ work'.drops.Perm (work.drops ++ ids.take k) ∧
      Tracks flash (mem.dropOverflow (ids.take k)) work' := by
  have belowTake : ∀ id ∈ ids.take k, id < mem.logical_id_counter :=
    fun id taken => below id (mem_of_mem_take taken)
  unfold freeEntryFailing
  split_ifs with big single
  · have whole : ids.length ≤ k := all fun followed => absurd followed.2 (not_lt.mpr single)
    obtain rfl := keeps.ids_of_single big single
    rw [take_of_length_le whole] at belowTake ⊢
    obtain ⟨same, drops⟩ := work.dropSingle_spec (cached e.ptr) e.ptr
    exact ⟨_, by rw [decide_eq_true whole], same, drops, tracks.drop belowTake same drops⟩
  · have lengths := (keeps.chain big).length_le cfg.ovdatasize_pos
    rw [← keeps.overflowLen_eq] at lengths
    have isFollowed : e.followed cfg := ⟨big, not_le.mp single⟩
    have followed : followFailing failure.reads mem.ovnodes (e.overflowLen cfg) 0 e.ptr =
        (ids.take k, decide (ids.length ≤ k)) :=
      (keeps.chain big).followFailing_eq lengths
        (fun i less => by rw [zero_add]; exact before isFollowed i less)
        (fun less => by rw [zero_add]; exact strikes isFollowed less)
    simp only [followed]
    have drops := work.drops_deleted (ids.take k)
    exact ⟨_, rfl, rfl, drops, tracks.drop belowTake rfl drops⟩
  · obtain rfl := keeps.unused (Bool.eq_false_iff.mpr big)
    have drops : work.drops.Perm (work.drops ++ [].take k) := by simp
    refine ⟨work, ?_, rfl, drops, tracks.drop belowTake rfl drops⟩
    simp [Tree.dropOverflow]

/-! ## The new data -/

variable {mem' : Tree κ} {obj : Obj κ}

/-- The part of an object's data that goes to overflow nodes. -/
def Obj.overflowData (cfg : Config κ) (obj : Obj κ) : Data :=
  obj.data.drop (cfg.btreeGetBigobjInleaf (cfg.keylen obj.key) obj.data.length)

theorem Obj.overflowData_ne_nil (cfg : Config κ) (obj : Obj κ) (nonempty : obj.data.length ≠ 0) :
    obj.overflowData cfg ≠ [] := by
  have less := btreeGetBigobjInleaf_lt cfg (cfg.keylen obj.key) nonempty
  rw [Obj.overflowData, ne_eq, drop_eq_nil_iff]
  omega

/-- The overflow nodes of an entry that is replaced can be read. -/
def Failure.SparesOld (cfg : Config κ) (mem : Tree κ) (failure : Failure) (e : Entry κ) : Prop :=
  btreeSnapFindMetaIndex mem.snapshots e.seqno = .none → e.followed cfg →
    ∀ i, i * cfg.ovdatasize < e.overflowLen cfg → failure.reads i = false

/-- No overflow node of the object fails. -/
def Failure.SparesNew (cfg : Config κ) (failure : Failure) (obj : Obj κ) : Prop :=
  cfg.bigObjectKd (cfg.keylen obj.key) obj.data.length = true →
    ∀ j, j * cfg.ovdatasize < (obj.overflowData cfg).length → failure.creates j = false

/-- The overflow nodes of the new data are all made, or the program stops. -/
theorem allocateFailing_spec (failure : Failure) (tracks : Tracks flash mem work)
    (started : mem.logical_id_counter ≠ 0) (nonempty : data ≠ []) :
    ((∀ j, j * cfg.ovdatasize < data.length → failure.creates j = false) →
      ∃ work', allocateFailing cfg failure mem work data =
          some ((allocateOverflowData cfg mem data).1, (allocateOverflowData cfg mem data).2, work') ∧
        work.modified ⊆ work'.modified ∧ work'.drops = work.drops ∧
        Tracks flash (allocateOverflowData cfg mem data).2 work') ∧
    ∀ j, j * cfg.ovdatasize < data.length → failure.creates j = true →
      allocateFailing cfg failure mem work data = none := by
  obtain ⟨count, counted, held, others⟩ := write_holds mem.ovnodes mem.logical_id_counter data started
    nonempty cfg.ovdatasize_pos le_rfl
  have needed : ∀ j, j < count ↔ j * cfg.ovdatasize < data.length := by
    intro j
    rw [← held.lt_length_iff, length_range']
  simp only [allocateFailing, allocateOverflowData, if_neg nonempty, counted, Nat.add_sub_cancel_left]
  constructor
  · intro spared
    have all : (range count).any failure.creates = false := by
      rw [List.any_eq_false]
      intro j made
      simpa using spared j ((needed j).mp (mem_range.mp made))
    rw [all]
    exact ⟨_, rfl, subset_append_left _ _, rfl, tracks.create (Nat.le_add_right _ _) others⟩
  · intro j reached strikes
    have found : (range count).any failure.creates = true :=
      List.any_eq_true.mpr ⟨j, mem_range.mpr ((needed j).mpr reached), strikes⟩
    rw [if_pos found]

theorem storeObjectFailing_spared (tracks : Tracks flash mem work)
    (started : mem.logical_id_counter ≠ 0) (spared : failure.SparesNew cfg obj)
    (stores : storeObject cfg mem obj.key obj.data obj.seqno obj.tombstone = some (mem', e)) :
    ∃ work', storeObjectFailing cfg failure mem work obj = some (mem', work', e) ∧
      work.modified ⊆ work'.modified ∧ work'.drops = work.drops ∧ Tracks flash mem' work' := by
  by_cases big : cfg.bigObjectKd (cfg.keylen obj.key) obj.data.length = true
  · simp only [storeObject, if_pos big] at stores
    split_ifs at stores with empty zero
    obtain ⟨work', allocated, grows, drops, tracks'⟩ := (allocateFailing_spec failure tracks started
      (obj.overflowData_ne_nil cfg empty)).1 (spared big)
    rw [Obj.overflowData] at allocated tracks'
    cases stores
    refine ⟨work', ?_, grows, drops, tracks'⟩
    simp only [storeObjectFailing, if_pos big, if_neg empty, allocated, bind_some, if_neg zero]
  · simp only [storeObject, if_neg big] at stores
    cases stores
    refine ⟨work, ?_, List.Subset.refl _, rfl, tracks⟩
    simp only [storeObjectFailing, if_neg big]

/-- An object whose overflow nodes cannot all be had is not stored. -/
theorem storeObjectFailing_struck (failure : Failure) (tracks : Tracks flash mem work)
    (started : mem.logical_id_counter ≠ 0) {j : ℕ}
    (big : cfg.bigObjectKd (cfg.keylen obj.key) obj.data.length = true)
    (reached : j * cfg.ovdatasize < (obj.overflowData cfg).length)
    (strikes : failure.creates j = true) :
    storeObjectFailing cfg failure mem work obj = none := by
  have nonempty : obj.overflowData cfg ≠ [] := length_pos_iff.mp (Nat.zero_lt_of_lt reached)
  have allocated := (allocateFailing_spec failure tracks started nonempty).2 j reached strikes
  rw [Obj.overflowData] at allocated
  simp [storeObjectFailing, big, allocated]

/-! ## The write as a whole -/

section

variable [LinearOrder κ] {last : ℕ} {versions : List (Entry κ × Data)} {old : Data}
  {trxenabled : Bool}

/-- What the write finds at the leaf: the tree in memory is in order, it and the
flash have the old value, the lists have the difference, and the object fits. -/
structure Replacing (cfg : Config κ) (flash mem : Tree κ) (work : Work) (h last : ℕ)
    (versions : List (Entry κ × Data)) (s : Slot (Pos κ)) (next : ℕ) (entries : List (Entry κ))
    (e : Entry κ) (old : Data) (obj : Obj κ) : Prop where
  inv : Inv cfg mem h last versions
  covers : Covers (mem.level h) ⟨obj.key, ⊤⟩ s
  stored : mem.nodes s.id = some (.leaf next entries)
  tracks : Tracks flash mem work
  latest : latestIn entries obj.key = some e
  alive : e.tombstone = false
  reads : btreeRawGet cfg mem obj.key .any = some (.success, old)
  readsFlash : btreeRawGet cfg flash obj.key .any = some (.success, old)
  object : obj.tombstone = false
  fresh : last < obj.seqno
  short : cfg.Unwrapped (cfg.keylen obj.key) obj.data.length
  small : cfg.keylen obj.key < cfg.maxKeySize
  writable : cfg.Writable (cfg.keylen obj.key) obj.data.length
  room : Room cfg obj entries (decide (btreeSnapFindMetaIndex mem.snapshots e.seqno = none))

/-- The overflow nodes that are deleted when an entry is replaced. -/
def Entry.replacedNodes (cfg : Config κ) (mem : Tree κ) (e : Entry κ) : ℕ :=
  if btreeSnapFindMetaIndex mem.snapshots e.seqno = none ∧ e.big cfg = true then
    e.overflowLen cfg ⌈/⌉ cfg.ovdatasize
  else 0

/-- The failure does no harm: of the old overflow nodes only the first one cannot be
read, no new one is missing, a batch that fails is rolled back or has overwritten
nothing, and of the nodes to be deleted the last one is. -/
def Failure.Spares (cfg : Config κ) (flash mem : Tree κ) (work : Work) (e : Entry κ) (obj : Obj κ)
    (trxenabled : Bool) : Failure → Prop
  | .none => True
  | .path => True
  | .chainNode k => btreeSnapFindMetaIndex mem.snapshots e.seqno = Option.none → e.followed cfg →
      k * cfg.ovdatasize < e.overflowLen cfg → k = 0
  | .newNode j => cfg.bigObjectKd (cfg.keylen obj.key) obj.data.length = true →
      (obj.overflowData cfg).length ≤ j * cfg.ovdatasize
  | .writeNodes batch landed =>
      trxenabled = true ∨ batch = 0 ∧ ∀ page, landed page = true → page.Fresh flash
  | .deleteNode i => i + 1 ≠ work.drops.length + e.replacedNodes cfg mem

/-- A write succeeds and its key has the new value, or it fails and the key has the
old value. -/
def OldOrNew (cfg : Config κ) (key : κ) (old new : Data) (result : Tree κ × Bool) : Prop :=
  btreeRawGet cfg result.1 key .any = some (.success, if result.2 then new else old)

omit [LinearOrder κ] in
/-- The end of the write: all is written, or what the flash had is still there. -/
theorem derefL1cache_spec (tracks : Tracks flash mem work)
    (harmless : ∀ batch landed, failure = .writeNodes batch landed →
      trxenabled = true ∨ batch = 0 ∧ ∀ page, landed page = true → page.Fresh flash)
    (goesOn : ∀ i, failure = .deleteNode i → i + 1 ≠ work.drops.length) :
    ∃ done flushed, derefL1cache trxenabled failure flash mem work = some (done, flushed) ∧
      if flushed then mem.Extends done else flash.Extends done := by
  have whole := (tracks.written (List.Subset.refl _)).1
  cases failure with
  | writeNodes batch landed =>
    by_cases reached : mputBatchSize * batch < work.pages.length
    · refine ⟨_, false, if_pos reached, ?_⟩
      rw [if_neg Bool.false_ne_true]
      split_ifs with enabled
      · exact ⟨rfl, fun _ _ => rfl, fun _ _ => rfl⟩
      · obtain ⟨rfl, fresh⟩ := (harmless batch landed rfl).resolve_left enabled
        refine putPages_fresh (fun page written => fresh page ?_) _
        simp only [landedPages, Nat.mul_zero, take_zero, nil_append, mem_filter] at written
        exact written.2
    · exact ⟨_, true, if_neg reached, whole⟩
  | deleteNode i =>
    have fewer := List.Sublist.subset (eraseIdx_sublist work.drops i)
    exact ⟨_, true, if_neg (goesOn i rfl), (tracks.written fewer).1⟩
  | _ => exact ⟨_, true, rfl, whole⟩

omit [LinearOrder κ] in
theorem overwrite_eq (trxenabled : Bool) (flash : Tree κ) {id index : ℕ} {is_update success : Bool}
    (ran : insertLowFailing cfg failure cached mem work id next entries obj index is_update =
      some (mem', work', success)) (notPath : failure ≠ .path) :
    overwrite cfg trxenabled failure cached flash mem work id next entries obj index is_update =
      (derefL1cache trxenabled failure flash mem' work').map
        fun result => (result.1, success && result.2) := by
  cases failure with
  | path => exact absurd rfl notPath
  | _ => simp [overwrite, ran]

section

variable (replacing : Replacing cfg flash mem work h last versions s next entries e old obj)

include replacing

/-- The old entry, with its overflow nodes. -/
theorem Replacing.keeps : ∃ ids, e.Keeps cfg mem.ovnodes ids old ∧ ids.Nodup ∧
      ∀ id ∈ ids, id < mem.logical_id_counter := by
  have inv := replacing.inv
  obtain ⟨vl, vm, vr, rfl, whole, -, -⟩ := inv.focus replacing.covers.mem replacing.stored
  obtain ⟨stored, -, -⟩ := visible_some replacing.latest
  rw [← whole, List.mem_map] at stored
  obtain ⟨⟨e', data⟩, vMem, rfl⟩ := stored
  obtain ⟨l, r, rfl⟩ := append_of_mem vMem
  have chains := inv.stored
  have regroup : vl ++ (l ++ (e', data) :: r) ++ vr = vl ++ l ++ (e', data) :: (r ++ vr) := by simp
  rw [regroup] at chains
  obtain ⟨ids, keeps, distinct, below, -⟩ := chains.split
  have reads := replacing.reads
  rw [btreeRawGet_leaf inv.shape replacing.covers replacing.stored replacing.latest replacing.alive,
    keeps.read] at reads
  cases reads
  exact ⟨ids, keeps, distinct, below⟩

theorem Replacing.started : mem.logical_id_counter ≠ 0 := by
  have below := replacing.inv.shape.ids s.id (by simp [replacing.stored])
  omega

omit [LinearOrder κ] replacing in
/-- The overflow nodes of an entry, counted. -/
theorem Entry.Keeps.length_eq (keeps : e.Keeps cfg mem.ovnodes ids data) (big : e.big cfg = true) :
    ids.length = e.overflowLen cfg ⌈/⌉ cfg.ovdatasize := by
  refine eq_of_forall_ge_iff fun n => ?_
  rw [ceilDiv_le_iff_le_mul cfg.ovdatasize_pos, Nat.mul_comm, keeps.overflowLen_eq, ← not_lt,
    ← not_lt, (keeps.chain big).lt_length_iff]

variable {index : ℕ} (found : (btreeLeafFindKey entries obj.key .any).1 = index)

include found

theorem Replacing.at_index : entries[index]? = some e ∧ isLeafKeyActive mem entries index =
      decide (btreeSnapFindMetaIndex mem.snapshots e.seqno = none) := by
  have sorted := replacing.inv.shape.leaf_sorted replacing.covers.mem replacing.stored
  have stored := found ▸ (btreeLeafFindKey_latest sorted obj.key).2 e replacing.latest
  refine ⟨stored, ?_⟩
  simp [isLeafKeyActive, stored]

/-- What the write makes of the tree when nothing fails. -/
theorem Replacing.writes :
    ∃ t' changed, btreeLeafInsertLow cfg mem entries obj.key obj.data obj.seqno obj.tombstone index
        (decide (btreeSnapFindMetaIndex mem.snapshots e.seqno = none)) = some (t', changed) ∧
      btreeRawGet cfg (t'.setNode s.id (.leaf next changed)) obj.key .any =
        some (.success, obj.data) := by
  subst found
  have inv := replacing.inv
  have covers := replacing.covers
  rw [← setNode_self replacing.stored] at inv covers
  have read : ∀ {t' : Tree κ} {versions'}, Inv cfg t' h obj.seqno versions' →
      Written mem.snapshots obj versions versions' →
      btreeRawGet cfg t' obj.key .any = some (.success, obj.data) := by
    intro t' versions' inv' written
    have value : valueAt versions' obj.key ⊤ = some obj.data := by
      rw [written.active, if_pos rfl]
      simp [Obj.value, replacing.object]
    have get := inv'.get (.inl rfl) obj.key
    rw [value] at get
    exact get
  have room := replacing.room
  by_cases isActive : btreeSnapFindMetaIndex mem.snapshots e.seqno = none
  · rw [decide_eq_true isActive] at room ⊢
    obtain ⟨t', changed, versions', inserted, -, inv', written⟩ := inv.replace covers replacing.fresh
      replacing.short replacing.small replacing.writable replacing.latest isActive
      (room.replace rfl e replacing.latest)
    exact ⟨t', changed, inserted, read inv' written⟩
  · rw [decide_eq_false isActive] at room ⊢
    obtain ⟨t', changed, versions', inserted, -, inv', written⟩ := inv.insert covers replacing.fresh
      replacing.short replacing.small replacing.writable (room.insert rfl)
    exact ⟨t', changed, inserted, read inv' written⟩

/-- The old version when all its overflow nodes can be read. -/
theorem Replacing.freeOld_spared (failure : Failure) (cached : ℕ → Bool)
    (spares : failure.SparesOld cfg mem e) : ∃ ids work₁,
      (if decide (btreeSnapFindMetaIndex mem.snapshots e.seqno = none) then
        (entries[index]?).bind (freeEntryData cfg mem) else some mem) = some (mem.dropOverflow ids) ∧
      freeOldFailing cfg failure cached mem { work with modified := work.modified ++ [.node s.id] }
        entries index (decide (btreeSnapFindMetaIndex mem.snapshots e.seqno = none)) =
          some (mem.dropOverflow ids, work₁, true) ∧
      .node s.id ∈ work₁.modified ∧
      work₁.drops.length = work.drops.length + e.replacedNodes cfg mem ∧
      Tracks flash (mem.dropOverflow ids) work₁ := by
  by_cases isActive : btreeSnapFindMetaIndex mem.snapshots e.seqno = none
  · obtain ⟨ids, keeps, distinct, below⟩ := replacing.keeps
    have before : e.followed cfg → ∀ i < ids.length, failure.reads i = false := by
      intro followed i less
      have reached := ((keeps.chain followed.1).lt_length_iff i).mp less
      rw [← keeps.overflowLen_eq] at reached
      exact spares isActive followed i reached
    obtain ⟨work₁, ran, listed, drops, tracks⟩ := freeEntryFailing_spec failure cached
      (replacing.tracks.list [.node s.id]) keeps below before
      (fun _ less => absurd less (lt_irrefl _)) (fun _ => le_rfl)
    rw [take_length, decide_eq_true le_rfl] at ran
    rw [take_length] at tracks drops
    have counted : ids.length = e.replacedNodes cfg mem := by
      unfold Entry.replacedNodes
      split_ifs with replaced
      · exact keeps.length_eq replaced.2
      · rw [keeps.unused (Bool.eq_false_iff.mpr fun big => replaced ⟨isActive, big⟩), length_nil]
    rw [decide_eq_true isActive]
    refine ⟨ids, work₁, ?_, ?_, listed ▸ mem_append_right _ mem_cons_self, ?_, tracks⟩
    · rw [if_pos rfl, (replacing.at_index found).1, bind_some, keeps.free distinct]
      rfl
    · rw [freeOldFailing, if_pos rfl, (replacing.at_index found).1, map_some, ran]
    · rw [drops.length_eq, length_append, counted]
      rfl
  · have same : mem.dropOverflow [] = mem := by simp [Tree.dropOverflow]
    rw [decide_eq_false isActive]
    have unused : e.replacedNodes cfg mem = 0 := if_neg fun replaced => isActive replaced.1
    exact ⟨[], _, by rw [same]; rfl, by rw [same]; rfl, mem_append_right _ mem_cons_self,
      by rw [unused]; rfl, same.symm ▸ replacing.tracks.list [.node s.id]⟩

/-- An old overflow node that cannot be read, with those before it already deleted. -/
theorem Replacing.insert_chain_struck (cached : ℕ → Bool)
    (isActive : btreeSnapFindMetaIndex mem.snapshots e.seqno = none) (followed : e.followed cfg)
    {k : ℕ} (reached : k * cfg.ovdatasize < e.overflowLen cfg) :
    ∃ (ids : List ℕ) (work' : Work), e.ptr ∈ ids.take 1 ∧
      insertLowFailing cfg (.chainNode k) cached mem work s.id next entries obj index
        (isLeafKeyActive mem entries index) = some (mem.dropOverflow (ids.take k), work', false) ∧
      Tracks flash (mem.dropOverflow (ids.take k)) work' := by
  obtain ⟨ids, keeps, distinct, below⟩ := replacing.keeps
  have held := keeps.chain followed.1
  have inside : k < ids.length := by
    rw [held.lt_length_iff, ← keeps.overflowLen_eq]
    exact reached
  have before : e.followed cfg → ∀ i < k, Failure.reads (.chainNode k) i = false := by
    intro _ i less
    simp [Failure.reads, less.ne]
  obtain ⟨work₁, ran, -, -, tracks⟩ := freeEntryFailing_spec (.chainNode k) cached
    (replacing.tracks.list [.node s.id]) keeps below before
    (fun _ _ => by simp [Failure.reads]) (fun not => absurd followed not)
  refine ⟨ids, work₁, ?_, ?_, tracks⟩
  · cases ids with
    | nil => simp at inside
    | cons first rest => simp [held.1]
  · rw [decide_eq_false (not_le.mpr inside)] at ran
    rw [(replacing.at_index found).2, decide_eq_true isActive]
    simp [insertLowFailing, freeOldFailing, (replacing.at_index found).1, ran]

/-- A new overflow node that cannot be had. -/
theorem Replacing.insert_new_struck (cached : ℕ → Bool) {j : ℕ}
    (big : cfg.bigObjectKd (cfg.keylen obj.key) obj.data.length = true)
    (reached : j * cfg.ovdatasize < (obj.overflowData cfg).length) :
    insertLowFailing cfg (.newNode j) cached mem work s.id next entries obj index
      (isLeafKeyActive mem entries index) = none := by
  obtain ⟨ids, work₁, -, freed, -, -, tracks⟩ :=
    replacing.freeOld_spared found (.newNode j) cached fun _ _ _ _ => rfl
  have stores := storeObjectFailing_struck (.newNode j) tracks replacing.started big reached
    (by simp [Failure.creates])
  rw [(replacing.at_index found).2]
  simp [insertLowFailing, freed, stores]

/-- A write without harm in the leaf: the new value is in memory. -/
theorem Replacing.insert_spared (failure : Failure) (cached : ℕ → Bool)
    (sparesOld : failure.SparesOld cfg mem e)
    (sparesNew : failure.SparesNew cfg obj) :
    ∃ mem' work', insertLowFailing cfg failure cached mem work s.id next entries obj index
        (isLeafKeyActive mem entries index) = some (mem', work', true) ∧
      btreeRawGet cfg mem' obj.key .any = some (.success, obj.data) ∧
      work'.drops.length = work.drops.length + e.replacedNodes cfg mem ∧
      Tracks flash mem' work' := by
  obtain ⟨t', changed, inserted, reads⟩ := replacing.writes found
  obtain ⟨ids, work₁, freed, freedWith, listed, counted, tracks₁⟩ :=
    replacing.freeOld_spared found failure cached sparesOld
  rw [btreeLeafInsertLow, freed, bind_some, insertEntry_eq] at inserted
  obtain ⟨⟨t₂, e'⟩, stores, inserted⟩ := bind_eq_some_iff.mp inserted
  obtain ⟨changed', updated, same⟩ := map_eq_some_iff.mp inserted
  cases same
  obtain ⟨work₂, storedWith, grows, drops, tracks₂⟩ :=
    storeObjectFailing_spared tracks₁ replacing.started sparesNew stores
  refine ⟨_, work₂, ?_, reads, by rw [drops, counted],
    tracks₂.setNode s.id (.leaf next changed) (grows listed)⟩
  rw [(replacing.at_index found).2]
  simp [insertLowFailing, freedWith, storedWith, updated]

/-! ## One failure -/

/-- A write without harm: the new value is written out, or the old one is on the flash. -/
theorem Replacing.overwrite_spared (trxenabled : Bool) (failure : Failure) (cached : ℕ → Bool)
    (notPath : failure ≠ .path)
    (sparesOld : failure.SparesOld cfg mem e) (sparesNew : failure.SparesNew cfg obj)
    (harmless : ∀ batch landed, failure = .writeNodes batch landed →
      trxenabled = true ∨ batch = 0 ∧ ∀ page, landed page = true → page.Fresh flash)
    (goesOn : ∀ i, failure = .deleteNode i → i + 1 ≠ work.drops.length + e.replacedNodes cfg mem) :
    ∃ result, overwrite cfg trxenabled failure cached flash mem work s.id next entries obj index
        (isLeafKeyActive mem entries index) = some result ∧
      OldOrNew cfg obj.key old obj.data result := by
  obtain ⟨mem', work', ran, reads, counted, tracks⟩ :=
    replacing.insert_spared found failure cached sparesOld sparesNew
  obtain ⟨done, flushed, ended, kept⟩ := derefL1cache_spec tracks harmless
    fun i failed => counted ▸ goesOn i failed
  refine ⟨(done, flushed), by rw [overwrite_eq trxenabled flash ran notPath, ended]; rfl, ?_⟩
  cases flushed with
  | true => exact Tree.Extends.btreeRawGet kept reads
  | false => exact Tree.Extends.btreeRawGet kept replacing.readsFlash

/-- A write that meets an old overflow node that it cannot read: the old value is
there if nothing was deleted before. -/
theorem Replacing.overwrite_chain_struck (trxenabled : Bool) (cached : ℕ → Bool)
    (isActive : btreeSnapFindMetaIndex mem.snapshots e.seqno = none) (followed : e.followed cfg)
    {k : ℕ} (reached : k * cfg.ovdatasize < e.overflowLen cfg) :
    ∃ result, overwrite cfg trxenabled (.chainNode k) cached flash mem work s.id next entries obj index
        (isLeafKeyActive mem entries index) = some result ∧
      (OldOrNew cfg obj.key old obj.data result ↔ k = 0) := by
  obtain ⟨ids, work', first, ran, tracks⟩ :=
    replacing.insert_chain_struck found cached isActive followed reached
  refine ⟨_, (overwrite_eq trxenabled flash ran nofun).trans rfl, ?_⟩
  obtain ⟨more, nodes, whole⟩ := tracks.written (List.Subset.refl _)
  simp only [OldOrNew, Bool.false_and, Bool.false_eq_true, if_false]
  constructor
  · intro reads
    by_contra later
    -- the first overflow node is among those that are deleted
    have gone : e.ptr ∈ ids.take k :=
      take_subset_take_left ids (Nat.one_le_iff_ne_zero.mpr later) first
    have nonempty : e.datalen ≠ 0 := by
      have long := followed.2
      unfold Entry.overflowLen at long
      omega
    have shape := replacing.inv.shape.dropOverflow (ids.take k)
    have lost : btreeRawGet cfg (mem.dropOverflow (ids.take k)) obj.key .any = some (.failure, []) := by
      rw [btreeRawGet_leaf shape replacing.covers replacing.stored replacing.latest replacing.alive]
      exact getLeafDataNthKey_of_gone followed.1 nonempty (if_pos gone)
    -- the two trees extend each other
    have back : Tree.Extends _ (mem.dropOverflow (ids.take k)) :=
      ⟨more.rootid.symm, fun id _ => congrFun nodes.symm id,
        fun id _ => congrFun (whole (List.Subset.refl _)).symm id⟩
    rw [back.btreeRawGet reads] at lost
    cases lost
  · rintro rfl
    have same : mem.Extends (mem.dropOverflow (ids.take 0)) :=
      ⟨rfl, fun _ _ => rfl, fun _ _ => by simp [Tree.dropOverflow]⟩
    exact more.btreeRawGet (same.btreeRawGet replacing.reads)

end

end

/-- An object with 330 bytes of data, of which 300 are in overflow nodes. -/
def largeObject (byte : UInt8) (seqno : ℕ) : Obj ℕ := ⟨10, replicate 330 byte, seqno, false⟩

/-- A tree with one such object. -/
def chainTree : Tree ℕ :=
  ((btreeRawWrite sampleTree .init (largeObject 7 1) .set).map Prod.fst).getD .init

/-- Its entry in the leaf. -/
def chainEntry : Entry ℕ := ⟨10, 1, false, 330, 2, replicate 30 7⟩

set_option maxRecDepth 4000 in
theorem chainTree_replacing : ∃ versions, Replacing sampleTree chainTree chainTree ⟨[], [], []⟩ 0 1
    versions ⟨1, ⊤⟩ 0 [chainEntry] chainEntry (replicate 330 7) (largeObject 8 2) := by
  have may : MayWrite sampleTree .init (largeObject 7 1) .set := by decide
  obtain ⟨t', h', versions, ran, inv, -, outcome⟩ := (Inv.init sampleTree).write Nat.one_pos may
  have same : chainTree = t' := by
    unfold chainTree
    rw [ran]
    rfl
  subst same
  have height : chainTree.rootLevel = h' := inv.shape.rootLevel_eq
  obtain rfl : 0 = h' := height
  have reads : btreeRawGet sampleTree chainTree 10 .any = some (.success, replicate 330 7) := by
    have get := inv.get (.inl rfl) 10
    have value : valueAt versions 10 ⊤ = some (replicate 330 7) := outcome.active 10
    rw [value] at get
    exact get
  exact ⟨versions, {
    inv := inv
    covers := covers_root chainTree _
    stored := rfl
    tracks := ⟨fun _ => rfl, fun _ _ => rfl, fun _ _ _ => rfl, forall_mem_nil _⟩
    latest := rfl
    alive := rfl
    reads := reads
    readsFlash := reads
    object := rfl
    fresh := Nat.lt_succ_self 1
    short := by decide
    small := by decide
    writable := by decide
    room := ⟨fun never => (nomatch never), fun _ old latest => by cases latest; decide⟩ }⟩

end Zetascale.Btree
