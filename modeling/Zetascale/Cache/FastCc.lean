import Mathlib

/-!
# The object cache

One slab of the object cache of `fastcc_new.c`. A slab owns a fixed pool of pages. A
cached object is a chain of pages that starts with its entry, so that the first
page of the chain is the entry's address; the entry is on the list of its bucket, on
the LRU list and, while it is modified, on the list of modified entries. The
doubly linked lists are lists of addresses here, the head first, and `heap` maps
an address to the entry that lies there. What the pages of an object hold behind the
entry, its key and its data, is kept with the entry.

Other threads post requests on a key to the slab's mailbox, and whoever next locks
the slab for a look-up carries them out first. `fthMboxPost` and `fthMboxTry` both
work on the head of the mailbox.

Functions return `none` where the code fails an assertion.
-/

namespace Zetascale.FastCc

/-- `SDF_container_type_t`. -/
inductive SdfContainerType where
  | object
  | block
  | invalid
deriving DecidableEq

/-- The states an entry is in: what `init_state_fn` sets, `mod_state` and `shared_state`. -/
inductive CacheState where
  | initial
  | modified
  | shared
deriving DecidableEq

/-- A container and a key in it. -/
structure ObjectKey where
  cguid : ℕ
  key : List UInt8
deriving DecidableEq

/-- `SDFNewCache_t`, as far as a slab depends on it. The fields after `hashFn` are what
`SDFNewCacheInit` aborts without, and what its only caller gives for the size of keys. -/
structure CacheConfig where
  /-- `sizeof(SDFNewCacheEntry_t)`. -/
  entrySize : ℕ
  pageDataSize : ℕ
  pagesPerSlab : ℕ
  maxKeySize : ℕ
  /-- The argument `max_object_size` of `SDFNewCacheInit`. -/
  maxObjectSizeArg : ℕ
  modsizePerSlab : ℕ
  maxFlushesPerModCheck : ℕ
  /-- Bucket and syndrome. -/
  hashFn : ObjectKey → ℕ × ℕ
  entrySize_pos : 0 < entrySize
  entrySize_le : entrySize ≤ pageDataSize
  maxObjEntrySize_le : entrySize + maxKeySize + maxObjectSizeArg ≤ pagesPerSlab * pageDataSize
  maxKeySize_le : maxKeySize ≤ 256

/-- `pc->max_object_size`, which `SDFNewCacheInit` raises to the size of an entry with its key. -/
def CacheConfig.maxObjectSize (pc : CacheConfig) : ℕ :=
  max pc.maxObjectSizeArg (pc.entrySize + pc.maxKeySize)

/-- `SDFNewCacheEntry_t` with the key, the data and the pages behind it. `obj_size` has 32 bits. -/
structure CacheEntry where
  id : ObjectKey
  objSize : ℕ
  ctype : SdfContainerType
  state : CacheState
  createtime : ℕ
  exptime : ℕ
  bucket : ℕ
  syndrome : ℕ
  data : List UInt8
  pages : List ℕ
deriving DecidableEq

/-- What an entry counts for in `modsize_w_keys`. -/
def CacheEntry.weight (entry : CacheEntry) : ℕ :=
  entry.objSize + entry.id.key.length

/-- The message of an `APRUP` request. -/
structure UpdateMessage where
  data : List UInt8
  createtime : ℕ
  curtime : ℕ
  exptime : ℕ
deriving DecidableEq

/-- The request types a slab carries out. -/
inductive RequestType where
  | apriv
  | aprfl
  | aprfi
  | aprup (message : UpdateMessage)

/-- `SDFNewCacheRequest_t`. -/
structure CacheRequest where
  reqtype : RequestType
  id : ObjectKey
  ctype : SdfContainerType

/-- `SDFNewCacheSlab_t`. `written` is what `wrbk_fn` was given, the newest first. -/
structure Slab where
  tmpEntry : CacheEntry
  lru : List ℕ
  modlru : List ℕ
  bucket : ℕ → List ℕ
  heap : ℕ → CacheEntry
  freePages : List ℕ
  modsizeWKeys : ℕ
  requestQueue : List CacheRequest
  written : List (ObjectKey × List UInt8)

/-- A pointer to an entry: the transient one of the slab or a cached one. -/
inductive EntryRef where
  | transient
  | cached (address : ℕ)

/-! ### Lists of entries -/

/-- `update_modlru_list`. -/
def updateModlruList (ps : Slab) (pce : ℕ) : Slab :=
  if (ps.heap pce).state = .modified then { ps with modlru := pce :: ps.modlru.erase pce } else ps

/-- `update_lru_list`. -/
def updateLruList (ps : Slab) (pce : ℕ) : Slab :=
  updateModlruList { ps with lru := pce :: ps.lru.erase pce } pce

/-- `modlru_remove`. -/
def modlruRemove (ps : Slab) (pce : ℕ) : Slab :=
  if (ps.heap pce).state = .modified then { ps with modlru := ps.modlru.erase pce } else ps

/-- `lru_remove`. -/
def lruRemove (ps : Slab) (pce : ℕ) : Slab :=
  modlruRemove { ps with lru := ps.lru.erase pce } pce

/-- `add_modlru_list`. -/
def addModlruList (ps : Slab) (pce : ℕ) : Slab :=
  if (ps.heap pce).state = .modified then { ps with modlru := pce :: ps.modlru } else ps

/-- `add_lru_list`. -/
def addLruList (ps : Slab) (pce : ℕ) : Slab :=
  addModlruList { ps with lru := pce :: ps.lru } pce

/-- A call of `wrbk_fn`. -/
def wrbkFn (ps : Slab) (pce : ℕ) : Slab :=
  { ps with written := ((ps.heap pce).id, (ps.heap pce).data) :: ps.written }

def setEntry (ps : Slab) (pce : ℕ) (entry : CacheEntry) : Slab :=
  { ps with heap := Function.update ps.heap pce entry }

def setState (ps : Slab) (pce : ℕ) (state : CacheState) : Slab :=
  setEntry ps pce { ps.heap pce with state := state }

/-- `SDFNewCacheAddModObjectStats`. -/
def addModObjectStats (ps : Slab) (pce : ℕ) : Slab :=
  addModlruList { ps with modsizeWKeys := ps.modsizeWKeys + (ps.heap pce).weight } pce

/-- `SDFNewCacheSubtractModObjectStats`. -/
def subtractModObjectStats (ps : Slab) (pce : ℕ) : Slab :=
  modlruRemove { ps with modsizeWKeys := ps.modsizeWKeys - (ps.heap pce).weight } pce

/-! ### Removal and allocation -/

/-- `fastcc_object_free`: the pages go to the free list one by one. -/
def fastccObjectFree (ps : Slab) (pages : List ℕ) : Slab × ℕ :=
  ({ ps with freePages := pages.reverse ++ ps.freePages }, pages.length)

/-- `SDFNewCacheRemove` of a cached entry, with the number of pages it freed. -/
def sdfNewCacheRemove (ps : Slab) (pce : ℕ) (wrbkFlag : Bool) : Option (Slab × ℕ) :=
  let entry := ps.heap pce
  if pce ∉ ps.bucket entry.bucket then none
  else
    let ps := { ps with
      bucket := Function.update ps.bucket entry.bucket ((ps.bucket entry.bucket).erase pce) }
    let ps := if entry.state = .modified then
      { ps with modsizeWKeys := ps.modsizeWKeys - entry.weight } else ps
    let ps := lruRemove ps pce
    let ps := if wrbkFlag = true ∧ entry.state = .modified then wrbkFn ps pce else ps
    some (fastccObjectFree ps entry.pages)

/-- `SDFNewCacheRemove` of what a look-up returned; the transient entry needs nothing. -/
def removeRef (ps : Slab) (ref : EntryRef) (wrbkFlag : Bool) : Option Slab :=
  match ref with
  | .transient => some ps
  | .cached pce => (sdfNewCacheRemove ps pce wrbkFlag).map Prod.fst

variable (pc : CacheConfig)

/-- The loops of `fastcc_object_alloc` that move free pages to the new chain. -/
def takePages (size : ℕ) : ℕ → List ℕ → List ℕ → ℕ × List ℕ × List ℕ
  | sizeFound, chain, [] => (sizeFound, chain, [])
  | sizeFound, chain, page :: free =>
    if sizeFound < size then takePages size (sizeFound + pc.pageDataSize) (page :: chain) free
    else (sizeFound, chain, page :: free)

/-- The loop of `fastcc_object_alloc` that removes entries from the tail of the LRU list. Each turn
shortens the list, whose length bounds the number of turns. -/
def reclaim (size : ℕ) : ℕ → Slab → ℕ → Option (Slab × ℕ)
  | 0, ps, reclaimed => some (ps, reclaimed)
  | turns + 1, ps, reclaimed =>
    match ps.lru.getLast? with
    | none => some (ps, reclaimed)
    | some pce =>
      match sdfNewCacheRemove ps pce true with
      | none => none
      | some (ps, npages) =>
        let reclaimed := reclaimed + npages * pc.pageDataSize
        if size ≤ reclaimed then some (ps, reclaimed) else reclaim size turns ps reclaimed

/-- `fastcc_object_alloc`. -/
def fastccObjectAlloc (ps : Slab) (size : ℕ) : Option (Slab × List ℕ) :=
  let (sizeFound, chain, free) := takePages pc size 0 [] ps.freePages
  let ps := { ps with freePages := free }
  if sizeFound < size then
    match reclaim pc size ps.lru.length ps sizeFound with
    | none => none
    | some (ps, reclaimed) =>
      if reclaimed < size then none
      else
        let (sizeFound, chain, free) := takePages pc size sizeFound chain ps.freePages
        if sizeFound < size then none else some ({ ps with freePages := free }, chain)
  else some (ps, chain)

/-! ### Look-up, creation, overwriting -/

/-- `SDFNewCacheGetCreate` without the lock. -/
def sdfNewCacheGetCreate (ps : Slab) (id : ObjectKey) (ctype : SdfContainerType) (curtime : ℕ) :
    Option (Slab × EntryRef) :=
  let (h, syndrome) := pc.hashFn id
  match (ps.bucket h).find? fun pce => (ps.heap pce).syndrome = syndrome ∧ (ps.heap pce).id = id with
  | some pce => some (updateLruList ps pce, .cached pce)
  | none =>
    if ctype = .invalid ∨ pc.maxKeySize ≤ id.key.length then none
    else
      some ({ ps with tmpEntry :=
        { id := id
          objSize := 0
          ctype := ctype
          state := .initial
          createtime := curtime
          exptime := 0
          bucket := h
          syndrome := syndrome
          data := []
          pages := [] } }, .transient)

/-- `SDFNewCacheCreateCacheObject` from the transient entry. What the new pages hold is not defined
until the caller fills them; here it is zeros. -/
def sdfNewCacheCreateCacheObject (ps : Slab) (size : ℕ) : Option (Slab × ℕ) :=
  let pce := ps.tmpEntry
  if pce.objSize ≠ 0 ∨ pc.maxObjectSize < size then none
  else
    match fastccObjectAlloc pc ps (pc.entrySize + pce.id.key.length + size) with
    | none => none
    | some (_, []) => none
    | some (ps, address :: rest) =>
      let objSize := size % 2 ^ 32
      let new := { pce with
        objSize := objSize
        data := List.replicate objSize 0
        pages := address :: rest }
      let ps := setEntry ps address new
      let ps := if new.state = .modified then
        { ps with modsizeWKeys := ps.modsizeWKeys + new.weight } else ps
      let ps := addLruList ps address
      some ({ ps with
        bucket := Function.update ps.bucket new.bucket (address :: ps.bucket new.bucket) }, address)

/-- `SDFNewCacheOverwriteCacheObject`: the old entry moves to the transient one before its pages
are freed. `size` has 32 bits. -/
def sdfNewCacheOverwriteCacheObject (ps : Slab) (pceOld : ℕ) (size : ℕ) : Option (Slab × ℕ) :=
  let tmp := { ps.heap pceOld with objSize := 0, pages := [] }
  match sdfNewCacheRemove { ps with tmpEntry := tmp } pceOld false with
  | none => none
  | some (ps, _) => sdfNewCacheCreateCacheObject pc ps (size % 2 ^ 32)

/-- `SDFNewCacheCopyIntoObject`. -/
def sdfNewCacheCopyIntoObject (ps : Slab) (pce : ℕ) (data : List UInt8) : Slab :=
  setEntry ps pce { ps.heap pce with data := data.take (ps.heap pce).objSize }

/-- What every writer does with a new or overwritten object: mark it modified, once. -/
def markModified (ps : Slab) (pce : ℕ) : Slab :=
  if (ps.heap pce).state = .modified then ps else addModObjectStats (setState ps pce .modified) pce

/-- Overwrite what was found or create what was not, copy the data in and mark the object. -/
def fill (ps : Slab) (ref : EntryRef) (data : List UInt8) : Option (Slab × ℕ) :=
  let made := match ref with
    | .transient => sdfNewCacheCreateCacheObject pc ps data.length
    | .cached pce => sdfNewCacheOverwriteCacheObject pc ps pce data.length
  made.map fun (ps, pce) => (markModified (sdfNewCacheCopyIntoObject ps pce data) pce, pce)

/-! ### Flushing and requests -/

/-- Write a modified entry back and make it a shared one. -/
def flushEntry (ps : Slab) (pce : ℕ) : Slab :=
  setState (subtractModObjectStats (wrbkFn ps pce) pce) pce .shared

/-- One turn of `process_pending_remote_requests`. -/
def processRequest (ps : Slab) (request : CacheRequest) : Option Slab :=
  match request.reqtype with
  | .apriv =>
    (sdfNewCacheGetCreate pc ps request.id request.ctype 0).bind fun (ps, ref) =>
      removeRef ps ref false
  | .aprfl =>
    (sdfNewCacheGetCreate pc ps request.id request.ctype 0).map fun (ps, ref) =>
      match ref with
      | .transient => ps
      | .cached pce => if (ps.heap pce).state = .modified then flushEntry ps pce else ps
  | .aprfi =>
    (sdfNewCacheGetCreate pc ps request.id request.ctype 0).bind fun (ps, ref) =>
      match ref with
      | .transient => some ps
      | .cached pce =>
        removeRef (if (ps.heap pce).state = .modified then flushEntry ps pce else ps) ref false
  | .aprup message =>
    (sdfNewCacheGetCreate pc ps request.id request.ctype message.createtime).bind fun (ps, ref) =>
      (fill pc ps ref message.data).map fun (ps, pce) =>
        setEntry ps pce { ps.heap pce with
          createtime := message.curtime
          exptime := message.exptime }

/-- `process_pending_remote_requests`, for the requests in the order in which `fthMboxTry` returns
them. -/
def processPendingRemoteRequests : Slab → List CacheRequest → Option Slab
  | ps, [] => some ps
  | ps, request :: rest =>
    (processRequest pc ps request).bind fun ps => processPendingRemoteRequests ps rest

/-- `SDFNewCachePostRequest`, with `fthMboxPost`. -/
def sdfNewCachePostRequest (ps : Slab) (request : CacheRequest) : Slab :=
  { ps with requestQueue := request :: ps.requestQueue }

/-- `SDFNewCacheGetCreate` with the lock. -/
def lockedGetCreate (ps : Slab) (id : ObjectKey) (ctype : SdfContainerType) (curtime : ℕ) :
    Option (Slab × EntryRef) :=
  (processPendingRemoteRequests pc { ps with requestQueue := [] } ps.requestQueue).bind fun ps =>
    sdfNewCacheGetCreate pc ps id ctype curtime

/-- The loop of `SDFNewCacheCheckModifiedObjectLimit`; `flushes` is how many it may still do. -/
def flushToLimit : ℕ → Slab → Option Slab
  | flushes, ps =>
    if ps.modsizeWKeys ≤ pc.modsizePerSlab then some ps
    else
      match ps.modlru.getLast? with
      -- a null pointer
      | none => none
      | some pce =>
        if (ps.heap pce).state ≠ .modified then none
        else
          match flushes with
          | 0 => some ps
          | flushes + 1 => flushToLimit flushes (flushEntry ps pce)

/-- `SDFNewCacheCheckModifiedObjectLimit`. -/
def sdfNewCacheCheckModifiedObjectLimit (ps : Slab) : Option Slab :=
  if ps.modlru = [] then some ps else flushToLimit pc pc.maxFlushesPerModCheck ps

/-- `SDFNewCacheFlushLRUModObject`. -/
def sdfNewCacheFlushLRUModObject (ps : Slab) : Option Slab :=
  match ps.modlru.getLast? with
  | none => some ps
  | some pce => if (ps.heap pce).state ≠ .modified then none else some (flushEntry ps pce)

end Zetascale.FastCc
