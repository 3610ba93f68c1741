import Zetascale.Lib.IndexList
import Zetascale.Recovery.Log

/-!
# The flash hash table

The in-memory map from syndromes to objects on flash. A bucket is a chain of
bucket entries, each with room for four hash entries; bucket entries that are no
longer used go to the free list of a lock. A link is an index into the table
plus one, 0 is the end of a chain.

The map of the locks with a non-empty free list is built with `1 << (pos % 64)`,
which shifts an `int` and is undefined from position 31 of a word on. It only
ever saves a look at an empty list, so what it answers is left open: it is an
argument of the insertion.
-/

namespace Zetascale.Flash

open Function

/-- `hash_entry_t` -/
structure HashEntry where
  used : Bool := false
  deleted : Bool := false
  referenced : Bool := false
  reserved : Bool := false
  blocks : ℕ := 0
  hesyndrome : ℕ := 0
  blkaddress : ℕ := 0
  cntrId : ℕ := 0
  deriving DecidableEq

/-- `bucket_entry_t` -/
structure BucketEntry where
  hashEntry : Fin 4 → HashEntry
  next : ℕ

/-- The address of a hash entry: its bucket entry and the slot in it. -/
structure EntryPtr where
  bucketEntry : ℕ
  slot : Fin 4

/-- `hash_handle_t`. The arrays are functions; `addrTable` is `NULL` in storm mode. -/
structure HashHandle where
  addrTable : Option (ℕ → ℕ)
  addrSize : ℕ
  hashSize : ℕ
  hashTable : ℕ → BucketEntry
  hashTableIdx : ℕ
  maxHashTableIdx : ℕ
  hashBuckets : ℕ → ℕ
  lockBktsize : ℕ
  lockBuckets : ℕ
  freeList : ℕ → ℕ
  allocCount : ℕ

/-- `OSD_HASH_BUCKET_SIZE` -/
def bucketSize : ℕ := 16

/-- `OSD_HASH_LOCK_BUCKETS` -/
def maxLockBuckets : ℕ := 262144

/-- `OSD_HASH_LOCKBKT_MINSIZE` -/
def lockbktMinsize : ℕ := 256

/-- The first loop over the number of locks. -/
def growLocks (bktsize buckets : ℕ) : ℕ × ℕ :=
  if maxLockBuckets < buckets then growLocks (bktsize * 2) (buckets / 2) else (bktsize, buckets)
termination_by buckets
decreasing_by
  have : 0 < maxLockBuckets := by decide
  omega

/-- The second loop over the number of locks. -/
def shrinkLocks (bktsize buckets : ℕ) : ℕ × ℕ :=
  if buckets < 32768 ∧ bucketSize ≤ bktsize / 2 then shrinkLocks (bktsize / 2) (buckets * 2)
  else (bktsize, buckets)
termination_by bktsize
decreasing_by
  have : 0 < bucketSize := by decide
  omega

/-- What `hash_table_init` is given. -/
structure InitParams where
  totalSize : ℕ
  maxNobjs : ℕ
  /-- `Mcd_osd_blk_size` -/
  blkSize : ℕ
  /-- `Mcd_osd_segment_blks` -/
  segmentBlks : ℕ
  stormMode : Bool
  blkSize_pos : 0 < blkSize
  segmentBlks_pos : 0 < segmentBlks

/-- The number of objects to provide for: one for each block, or `max_nobjs` in whole segments. -/
def InitParams.objects (params : InitParams) : ℕ :=
  let blocks := params.totalSize / params.blkSize
  if 0 < params.maxNobjs ∧ params.maxNobjs < blocks then
    (params.maxNobjs + params.segmentBlks - 1) / params.segmentBlks * params.segmentBlks
  else blocks

/-- The number of hash indexes for them. -/
def InitParams.hashSize (params : InitParams) : ℕ := params.objects + params.objects / 4

/-- Size and number of the locks. -/
def InitParams.locks (params : InitParams) : ℕ × ℕ :=
  let grown := growLocks lockbktMinsize ((params.hashSize + lockbktMinsize - 1) / lockbktMinsize)
  shrinkLocks grown.1 grown.2

/-- `hash_table_init` -/
def hashTableInit (params : InitParams) : HashHandle :=
  let lockBktsize := params.locks.1
  let lockBuckets := params.locks.2
  let hashSize := max params.hashSize (lockBktsize * lockBuckets)
  { addrTable := if params.stormMode then none else some fun _ => 0
    addrSize := params.totalSize / params.blkSize
    hashSize
    hashTable := fun _ => { hashEntry := fun _ => {}, next := 0 }
    hashTableIdx := 0
    maxHashTableIdx := (hashSize / 4 + hashSize / bucketSize) % 2 ^ 32
    hashBuckets := fun _ => 0
    lockBktsize
    lockBuckets
    freeList := fun _ => 0
    allocCount := 0 }

namespace HashHandle

variable (h : HashHandle)

/-- The hash entry at an address. -/
def entry (he : EntryPtr) : HashEntry := (h.hashTable he.bucketEntry).hashEntry he.slot

/-- `hash_entry_copy` -/
def setEntry (he : EntryPtr) (e : HashEntry) : HashHandle :=
  { h with
    hashTable := update h.hashTable he.bucketEntry
      { h.hashTable he.bucketEntry with
        hashEntry := update (h.hashTable he.bucketEntry).hashEntry he.slot e } }

/-- A write to the address table, of `uint32_t`, if there is one. -/
def setAddr (blk hashIdx : ℕ) : HashHandle :=
  { h with addrTable := h.addrTable.map fun table => update table blk (hashIdx % 2 ^ 32) }

/-- The number of buckets. -/
def buckets : ℕ := h.hashSize / bucketSize

/-- The bits of `bucket_locks_free_map`. -/
def mapBits : ℕ := (h.lockBuckets + 64 - 1) / 64 * 64

/-- The first unused entry of a bucket entry. -/
def firstUnused (b : BucketEntry) : Option (Fin 4) :=
  (List.finRange 4).find? fun i => !(b.hashEntry i).used

/-- An unused entry in the head of a bucket. -/
def headHole (bucket : ℕ) : Option EntryPtr :=
  if h.hashBuckets bucket = 0 then none
  else (firstUnused (h.hashTable (h.hashBuckets bucket - 1))).map fun slot =>
    { bucketEntry := h.hashBuckets bucket - 1, slot }

/-- The first entry of the head of a bucket. -/
def headEntry (bucket : ℕ) : EntryPtr := { bucketEntry := h.hashBuckets bucket - 1, slot := 0 }

/-- Move the head of a lock's free list to a bucket. -/
def takeFree (bucket lock : ℕ) : HashHandle :=
  let pop := h.freeList lock - 1
  { h with
    freeList := update h.freeList lock (h.hashTable pop).next
    hashTable := update h.hashTable pop
      { h.hashTable pop with next := h.hashBuckets bucket }
    hashBuckets := update h.hashBuckets bucket (pop + 1) }

/-- Move the next fresh bucket entry to a bucket. -/
def takeFresh (bucket : ℕ) : HashHandle :=
  { h with
    hashTableIdx := h.hashTableIdx + 1
    hashTable := update h.hashTable h.hashTableIdx
      { h.hashTable h.hashTableIdx with next := h.hashBuckets bucket }
    hashBuckets := update h.hashBuckets bucket (h.hashTableIdx + 1) }

/-- Look through free lists for a bucket entry. `none` is an access out of bounds. -/
def popLists (isset : ℕ → Bool) (bucket : ℕ) : List ℕ → Option (Option HashHandle)
  | [] => some none
  | lock :: rest =>
    if h.mapBits ≤ lock then none
    else if isset lock then
      if h.lockBuckets ≤ lock then none
      else if h.freeList lock ≠ 0 then some (some (h.takeFree bucket lock))
      else popLists isset bucket rest
    else popLists isset bucket rest

/-- The number of entries handed out goes up. -/
def counted : HashHandle := { h with allocCount := h.allocCount + 1 }

end HashHandle

open HashHandle

/-- `hash_entry_insert_by_key`: the entry to fill, if there is one left. `none` is an access out
of bounds. -/
def hashEntryInsertByKey (isset : ℕ → Bool) (h : HashHandle) (syndrome : ℕ) :
    Option (HashHandle × Option EntryPtr) :=
  let hashIdx := syndrome % h.hashSize
  let bucket := hashIdx / bucketSize
  if h.buckets ≤ bucket then none
  else match h.headHole bucket with
    | some he => some (h.counted, some he)
    | none =>
      match h.popLists isset bucket [hashIdx / h.lockBktsize] with
      | none => none
      | some (some h') => some (h'.counted, some (h'.headEntry bucket))
      | some none =>
        if h.hashTableIdx < h.maxHashTableIdx then
          some ((h.takeFresh bucket).counted, some ((h.takeFresh bucket).headEntry bucket))
        else
          -- the loop over the lists of other locks is bounded by `lock_bktsize`
          match h.popLists isset bucket (List.range h.lockBktsize) with
          | none => none
          | some (some h') => some (h'.counted, some (h'.headEntry bucket))
          | some none => some (h, none)

/-- The caller fills the entry and writes the address table. -/
def fillEntry (h : HashHandle) (he : EntryPtr) (e : HashEntry) (hashIdx : ℕ) : Option HashHandle :=
  if h.addrTable.isSome ∧ h.addrSize ≤ e.blkaddress then none
  else some ((h.setEntry he e).setAddr e.blkaddress hashIdx)

/-- An insertion as its callers do it; the answer tells whether there was an entry left. -/
def insertEntry (isset : ℕ → Bool) (h : HashHandle) (syndrome : ℕ) (e : HashEntry) :
    Option (HashHandle × Bool) :=
  match hashEntryInsertByKey isset h syndrome with
  | none => none
  | some (h', none) => some (h', false)
  | some (h', some he) => (fillEntry h' he e (syndrome % h.hashSize)).map fun done => (done, true)

/-- The bucket of an object found in recovery. -/
def recoveryBucket (h : HashHandle) (obj : Recovery.FlashObject) : ℕ :=
  if h.addrTable.isNone then obj.obucket else obj.obucket / bucketSize

/-- The entry that recovery makes of an object. -/
def recoveredEntry (e : HashEntry) (obj : Recovery.FlashObject) (blkOffset : ℕ) : HashEntry :=
  { e with
    used := true
    referenced := true
    deleted := obj.deleted
    blocks := obj.blocks
    hesyndrome := obj.osyndrome
    blkaddress := blkOffset
    cntrId := obj.cntrId }

/-- `hash_entry_recovery_insert`. `none` is an access out of bounds, or the abort when the table is
used up. -/
def hashEntryRecoveryInsert (h : HashHandle) (obj : Recovery.FlashObject) (blkOffset : ℕ) :
    Option HashHandle :=
  let bucket := recoveryBucket h obj
  if h.buckets ≤ bucket then none
  else match h.headHole bucket with
    | some he =>
      fillEntry h.counted he (recoveredEntry (h.entry he) obj blkOffset) obj.obucket
    | none =>
      if h.hashTableIdx < h.maxHashTableIdx then
        let fresh := h.takeFresh bucket
        let he := fresh.headEntry bucket
        fillEntry fresh.counted he (recoveredEntry (fresh.entry he) obj blkOffset) obj.obucket
      else none

namespace HashHandle

/-- The walk along a chain to a bucket entry. -/
def onChain (h : HashHandle) (target : ℕ) : ℕ → ℕ → Bool
  | 0, _ => false
  | fuel + 1, hbi =>
    if hbi = 0 then false
    else if hbi - 1 = target then true
    else onChain h target fuel (h.hashTable (hbi - 1)).next

/-- One round of the loop that fills the holes of `del` from `head`; `j` is kept between rounds. -/
def moveStep (head del hashIdx : ℕ) (state : HashHandle × ℕ) (i : Fin 4) : HashHandle × ℕ :=
  if (state.1.entry ⟨del, i⟩).used then state
  else
    match (List.finRange 4).find?
        fun j => decide (state.2 ≤ j.val) && (state.1.entry ⟨head, j⟩).used with
    | none => (state.1, 4)
    | some j =>
      let moved := state.1.entry ⟨head, j⟩
      (((state.1.setEntry ⟨del, i⟩ moved).setEntry ⟨head, j⟩ {}).setAddr moved.blkaddress hashIdx,
        j)

/-- The head of a bucket goes to the free list of a lock. -/
def releaseHead (h : HashHandle) (bucket lock : ℕ) : HashHandle :=
  let head := h.hashBuckets bucket - 1
  { h with
    hashBuckets := update h.hashBuckets bucket (h.hashTable head).next
    hashTable := update h.hashTable head
      { h.hashTable head with next := h.freeList lock }
    freeList := update h.freeList lock (head + 1) }

end HashHandle

/-- The entry cleared, and the hole filled from the head of the chain. -/
def clearEntry (h : HashHandle) (he : EntryPtr) (hashIdx : ℕ) : HashHandle :=
  let head := h.hashBuckets (hashIdx / bucketSize) - 1
  let cleared := ((h.setAddr (h.entry he).blkaddress 0).setEntry he {})
  if head = he.bucketEntry then cleared
  else ((List.finRange 4).foldl (moveStep head he.bucketEntry hashIdx) (cleared, 0)).1

/-- `hash_entry_delete`. `none` is a failed assertion or an access out of bounds. -/
def hashEntryDelete (h : HashHandle) (he : EntryPtr) (hashIdx : ℕ) : Option HashHandle :=
  let hashIdx := hashIdx % 2 ^ 32
  let bucket := hashIdx / bucketSize
  let lock := hashIdx / h.lockBktsize
  if h.buckets ≤ bucket then none
  else if h.onChain he.bucketEntry (h.hashTableIdx + 1) (h.hashBuckets bucket) = false then none
  else
    let cleared := clearEntry { h with allocCount := h.allocCount - 1 } he hashIdx
    let head := cleared.hashTable (cleared.hashBuckets bucket - 1)
    if ∀ i, (head.hashEntry i).used = false then
      if h.lockBuckets ≤ lock then none else some (cleared.releaseHead bucket lock)
    else some cleared

end Zetascale.Flash
