import Zetascale.Cache.SlabOps
import Zetascale.Lib.Machine

/-!
# The object cache is transparent

A world runs one slab: other threads post requests, and the holder of the slab's
lock looks objects up, stores them and flushes modified ones. `expected` says for
each object what its value should be, with the posted requests counted in the order
in which they were posted, and `applied` lists the requests in the order in which
they were carried out.

The mailbox hands out the last request first. As long as every locked look-up finds
pending requests that read the same from both ends, a single one for instance, and
objects fit into the slab, all values are as expected.
-/

namespace Zetascale.FastCc

open WriteBack Function List Option Cache Machine

variable {pc : CacheConfig} {ps : Slab} {pce : ℕ} {id : ObjectKey}

/-! ### Look-up and filling -/

/-- What a look-up returned is the cached entry, or the transient one made ready. -/
def Looked (pc : CacheConfig) (ps : Slab) (id : ObjectKey) : EntryRef → Prop
  | .transient => Ready pc ps id
  | .cached pce => pce ∈ ps.lru ∧ (ps.heap pce).id = id

variable {ctype : SdfContainerType}

theorem getCreate_spec (wf : WellFormed pc ps [])
    (valid : ctype ≠ .invalid) (short : id.key.length < pc.maxKeySize) (curtime : ℕ) :
    ∃ after ref, sdfNewCacheGetCreate pc ps id ctype curtime = some (after, ref) ∧
      WellFormed pc after [] ∧ after.view = ps.view ∧ after.requestQueue = ps.requestQueue ∧
      Looked pc after id ref := by
  unfold sdfNewCacheGetCreate
  dsimp only
  rw [wf.search id]
  cases found : ps.find id with
  | some pce =>
    obtain ⟨cached, same⟩ := (find_eq_some_iff wf.once).mp found
    refine ⟨_, _, rfl, updateLruList_wellFormed wf cached, updateLruList_view wf cached, ?_, ?_, ?_⟩
    · unfold updateLruList updateModlruList
      split <;> rfl
    · exact (updateLruList_lru cached pce).mpr cached
    · rw [updateLruList_heap]
      exact same
  | none =>
    have allowed : ¬(ctype = .invalid ∨ pc.maxKeySize ≤ id.key.length) := by
      rintro (invalid | long)
      · exact valid invalid
      · omega
    rw [if_neg allowed]
    exact ⟨_, _, rfl, { wf with }, rfl, rfl, rfl, rfl, rfl, find_eq_none_iff.mp found⟩

/-- Filling what a look-up returned stores the data, over a cache in which other objects were evicted
and the object itself may have been dropped. -/
theorem fill_spec (wf : WellFormed pc ps []) {ref : EntryRef} (looked : Looked pc ps id ref)
    {data : List UInt8} (allowed : data.length ≤ pc.maxObjectSize) (fits : Fits pc id data.length) :
    ∃ after pce base, ∃ evicted : List ObjectKey, fill pc ps ref data = some (after, pce) ∧
      WellFormed pc after [] ∧ pce ∈ after.lru ∧ after.requestQueue = ps.requestQueue ∧
      (base = ps.view ∨ base = ps.view.drop id) ∧
      after.view = (evicted.foldl Cache.evict base).store id data := by
  cases ref with
  | transient =>
    obtain ⟨made, pce, creates, created⟩ := create_spec wf looked allowed fits
    obtain ⟨evicted, view, wfAfter, cached, queue⟩ := created.fill
    refine ⟨_, pce, ps.view, evicted, ?_, wfAfter, cached, queue, .inl rfl, view⟩
    simp only [fill, creates, map_some]
  | cached old =>
    obtain ⟨oldCached, same⟩ := looked
    let tmp : CacheEntry := { ps.heap old with objSize := 0, pages := [] }
    have wfTmp : WellFormed pc { ps with tmpEntry := tmp } [] := { wf with }
    obtain ⟨middle, removes, removed⟩ := remove_spec wfTmp oldCached false
    have view : middle.view = ps.view.drop id := by
      rw [removed.view wfTmp oldCached, if_neg Bool.false_ne_true]
      show ps.view.drop (ps.heap old).id = _
      rw [same]
    have ready : Ready pc middle id := by
      refine ⟨?_, ?_, ?_, ?_⟩
      · rw [removed.tmpEntry]
        exact same
      · rw [removed.tmpEntry]
      · rw [removed.tmpEntry, ← same]
        exact wf.hashed old oldCached
      · intro other cached
        rw [removed.lru] at cached
        rw [removed.heap]
        obtain ⟨ne, before⟩ := wf.lruNodup.mem_erase_iff.mp cached
        exact fun sameId => ne (wf.once other before old oldCached (sameId.trans same.symm))
    obtain ⟨made, pce, creates, created⟩ := create_spec removed.wellFormed ready allowed fits
    obtain ⟨evicted, viewAfter, wfAfter, cached, queue⟩ := created.fill
    refine ⟨_, pce, ps.view.drop id, evicted, ?_, wfAfter, cached, ?_, .inr rfl, ?_⟩
    · have cut : data.length % 2 ^ 32 = data.length := Nat.mod_eq_of_lt fits.recorded
      simp only [fill, sdfNewCacheOverwriteCacheObject, tmp, removes, cut, creates, map_some]
    · rw [queue, removed.queue]
    · rw [viewAfter, view]

/-! ### Requests -/

/-- What a request makes of the expected values. -/
def CacheRequest.expect (expected : ObjectKey → Expected (List UInt8)) (request : CacheRequest) :
    ObjectKey → Expected (List UInt8) :=
  match request.reqtype with
  | .apriv => update expected request.id .anything
  | .aprfl => expected
  | .aprfi => expected
  | .aprup message => update expected request.id (.value (some message.data))

open CacheRequest

/-- The slab is in order and has the expected values. -/
structure Transparent (pc : CacheConfig) (ps : Slab) (expected : ObjectKey → Expected (List UInt8)) :
    Prop where
  wellFormed : WellFormed pc ps []
  clean : ps.view.Clean
  met : ∀ id, (expected id).Met (ps.view.value id)

variable {expected : ObjectKey → Expected (List UInt8)} {after : Slab}

section

variable (transparent : Transparent pc ps expected) (wf : WellFormed pc after [])

include transparent wf

theorem Transparent.of_view (view : after.view = ps.view) : Transparent pc after expected :=
  ⟨wf, view ▸ transparent.clean, view ▸ transparent.met⟩

/-- A slab whose cache was flushed or evicted some objects has the same values. -/
theorem Transparent.flush (view : after.view = ps.view.flush id) :
    Transparent pc after expected := by
  refine ⟨wf, ?_, fun other => ?_⟩
  · rw [view]
    exact transparent.clean.flush
  · rw [view, value_flush]
    exact transparent.met other

theorem Transparent.store {base : Cache ObjectKey (List UInt8)}
    (from' : base = ps.view ∨ base = ps.view.drop id) {evicted : List ObjectKey} {data : List UInt8}
    (view : after.view = (evicted.foldl Cache.evict base).store id data) :
    Transparent pc after (update expected id (.value (some data))) := by
  have clean : base.Clean := by
    rcases from' with rfl | rfl
    · exact transparent.clean
    · exact transparent.clean.drop
  have elsewhere : ∀ other, other ≠ id → base.value other = ps.view.value other := by
    intro other ne
    rcases from' with rfl | rfl
    · rfl
    · exact value_drop_of_ne ne
  obtain ⟨stillClean, values⟩ := clean.evict_all evicted
  refine ⟨wf, ?_, fun other => ?_⟩
  · rw [view]
    exact stillClean.store data
  · rw [view, value_store]
    by_cases here : other = id
    · subst here
      rw [update_self, update_self]
      rfl
    · rw [update_of_ne here, update_of_ne here, values, elsewhere other here]
      exact transparent.met other

end

/-- The key is one the cache takes and the data is within its own limit. -/
def Allowed (pc : CacheConfig) (id : ObjectKey) (ctype : SdfContainerType) (size : ℕ) : Prop :=
  ctype ≠ .invalid ∧ id.key.length < pc.maxKeySize ∧ size ≤ pc.maxObjectSize

/-- The size of the data that comes with a request. -/
def CacheRequest.size (request : CacheRequest) : ℕ :=
  match request.reqtype with
  | .aprup message => message.data.length
  | _ => 0

/-- A request may be posted, and if it brings data the slab has room for it. -/
structure CacheRequest.Good (pc : CacheConfig) (request : CacheRequest) : Prop where
  allowed : Allowed pc request.id request.ctype request.size
  fits : ∀ message, request.reqtype = .aprup message → Fits pc request.id message.data.length

section

variable (transparent : Transparent pc ps expected)

include transparent

/-- Dropping an object makes its value unknown and leaves the others. -/
theorem Transparent.drop (wf : WellFormed pc after []) (view : after.view = ps.view.drop id) :
    Transparent pc after (update expected id .anything) := by
  refine ⟨wf, ?_, fun other => ?_⟩
  · rw [view]
    exact transparent.clean.drop
  · rw [view]
    by_cases here : other = id
    · subst here
      rw [update_self]
      trivial
    · rw [update_of_ne here, value_drop_of_ne here]
      exact transparent.met other

theorem Transparent.anything : Transparent pc ps (update expected id .anything) := by
  refine ⟨transparent.wellFormed, transparent.clean, fun other => ?_⟩
  by_cases here : other = id
  · subst here
    rw [update_self]
    trivial
  · rw [update_of_ne here]
    exact transparent.met other

/-- A request is carried out as a cache would, whatever space it has to make. -/
theorem processRequest_spec {request : CacheRequest} (good : request.Good pc) :
    ∃ after, processRequest pc ps request = some after ∧
      Transparent pc after (request.expect expected) ∧ after.requestQueue = ps.requestQueue := by
  obtain ⟨valid, short, small⟩ := good.allowed
  obtain ⟨reqtype, id, ctype⟩ := request
  have lookUp := fun curtime => getCreate_spec transparent.wellFormed valid short curtime
  obtain ⟨middle, ref, gets, wf, view, queue, looked⟩ := lookUp 0
  have still : Transparent pc middle expected := transparent.of_view wf view
  cases reqtype with
  | apriv =>
    simp only [processRequest, gets, bind_some, expect]
    cases ref with
    | transient => exact ⟨middle, rfl, still.anything, queue⟩
    | cached pce =>
      obtain ⟨after, removes, removed⟩ := remove_spec wf looked.1 false
      refine ⟨after, by simp [removeRef, removes], still.drop removed.wellFormed ?_,
        removed.queue.trans queue⟩
      rw [removed.view wf looked.1, if_neg Bool.false_ne_true, looked.2]
  | aprfl =>
    simp only [processRequest, gets, map_some, expect]
    cases ref with
    | transient => exact ⟨middle, rfl, still, queue⟩
    | cached pce =>
      dsimp only
      split
      · next modified =>
          obtain ⟨wfAfter, viewAfter, queueAfter, _⟩ := flushEntry_spec wf looked.1 modified
          exact ⟨_, rfl, still.flush wfAfter viewAfter, queueAfter.trans queue⟩
      · exact ⟨middle, rfl, still, queue⟩
  | aprfi =>
    simp only [processRequest, gets, bind_some, expect]
    cases ref with
    | transient => exact ⟨middle, rfl, still, queue⟩
    | cached pce =>
      -- what is removed in the end holds what was last written
      have flushed : ∃ flushed, (if (middle.heap pce).state = .modified then flushEntry middle pce
            else middle) = flushed ∧ Transparent pc flushed expected ∧
          flushed.requestQueue = middle.requestQueue ∧ pce ∈ flushed.lru ∧
          (flushed.heap pce).state ≠ .modified := by
        split
        · next modified =>
            obtain ⟨wfAfter, viewAfter, queueAfter, lru, heap⟩ := flushEntry_spec wf looked.1 modified
            refine ⟨_, rfl, still.flush wfAfter viewAfter, queueAfter, lru ▸ looked.1, ?_⟩
            rw [heap, update_self]
            nofun
        · next clean => exact ⟨middle, rfl, still, rfl, looked.1, clean⟩
      obtain ⟨flushed, eq, clean, queueFlushed, cached, shared⟩ := flushed
      obtain ⟨after, removes, removed⟩ := remove_spec clean.wellFormed cached false
      refine ⟨after, by simp [eq, removeRef, removes], ?_,
        removed.queue.trans (queueFlushed.trans queue)⟩
      have viewAfter : after.view = flushed.view.drop (flushed.heap pce).id := by
        rw [removed.view clean.wellFormed cached, if_neg Bool.false_ne_true]
      have notDirty : ∀ line, flushed.view.line (flushed.heap pce).id = some line → line.dirty = false := by
        intro line held
        rw [clean.wellFormed.line cached, some.injEq] at held
        rw [← held]
        exact decide_eq_false shared
      refine ⟨removed.wellFormed, viewAfter ▸ clean.clean.drop, fun other => ?_⟩
      rw [viewAfter, clean.clean.value_drop notDirty]
      exact clean.met other
  | aprup message =>
    obtain ⟨middle, ref, gets, wf, view, queue, looked⟩ := lookUp message.createtime
    have still : Transparent pc middle expected := transparent.of_view wf view
    obtain ⟨filled, pce, base, evicted, fills, wfFilled, cached, queueFilled, from', viewFilled⟩ :=
      fill_spec wf looked small (good.fits message rfl)
    have stored := still.store wfFilled from' viewFilled
    let timed : CacheEntry := { filled.heap pce with
      createtime := message.curtime
      exptime := message.exptime }
    have same : (setEntry filled pce timed).view = filled.view := by
      have line := wfFilled.line cached
      have lru : (setEntry filled pce timed).lru = filled.lru := rfl
      rw [setEntry_view wfFilled cached timed rfl lru rfl]
      show ({ line := update filled.view.line (filled.heap pce).id (some (filled.heap pce).line)
              written := filled.written } : Cache ObjectKey (List UInt8)) = _
      rw [← line, update_eq_self]
      rfl
    refine ⟨setEntry filled pce timed, ?_, ?_, queueFilled.trans queue⟩
    · simp [processRequest, gets, fills, timed]
    · exact stored.of_view (setEntry_wellFormed wfFilled rfl rfl rfl rfl rfl rfl) same

/-- By induction over the requests in the order in which they are carried out. -/
theorem processPending_spec
    {requests : List CacheRequest} (good : ∀ request ∈ requests, request.Good pc) :
    ∃ after, processPendingRemoteRequests pc ps requests = some after ∧
      Transparent pc after (requests.foldl CacheRequest.expect expected) ∧
      after.requestQueue = ps.requestQueue := by
  induction requests generalizing ps expected with
  | nil => exact ⟨ps, rfl, transparent, rfl⟩
  | cons request rest ih =>
    rw [forall_mem_cons] at good
    obtain ⟨middle, first, still, queue⟩ := processRequest_spec transparent good.1
    obtain ⟨after, others, final, queueAfter⟩ := ih still good.2
    exact ⟨after, by rw [processPendingRemoteRequests, first, bind_some, others], final,
      queueAfter.trans queue⟩

end

/-! ### Flushing modified entries -/

theorem tail_modified (wf : WellFormed pc ps []) (tail : ps.modlru.getLast? = some pce) :
    pce ∈ ps.lru ∧ (ps.heap pce).state = .modified :=
  (wf.mem_modlru pce).mp (mem_of_getLast? tail)

theorem exists_tail (wf : WellFormed pc ps []) {limit : ℕ} (above : ¬ ps.modsizeWKeys ≤ limit) :
    ∃ pce, ps.modlru.getLast? = some pce ∧ pce ∈ ps.lru ∧ (ps.heap pce).state = .modified := by
  cases tail : ps.modlru.getLast? with
  | none =>
    have sum := wf.modsize
    rw [getLast?_eq_none_iff.mp tail, map_nil, sum_nil] at sum
    omega
  | some pce => exact ⟨pce, rfl, tail_modified wf tail⟩

theorem flushToLimit_spec (flushes : ℕ) (transparent : Transparent pc ps expected) :
    ∃ after, flushToLimit pc flushes ps = some after ∧ Transparent pc after expected ∧
      after.requestQueue = ps.requestQueue := by
  induction flushes generalizing ps with
  | zero =>
    unfold flushToLimit
    split
    · exact ⟨ps, rfl, transparent, rfl⟩
    · next above =>
        obtain ⟨pce, tail, _, modified⟩ := exists_tail transparent.wellFormed above
        simp only [tail, modified, ne_eq, not_true_eq_false, if_false]
        exact ⟨ps, rfl, transparent, rfl⟩
  | succ flushes ih =>
    unfold flushToLimit
    split
    · exact ⟨ps, rfl, transparent, rfl⟩
    · next above =>
        obtain ⟨pce, tail, cached, modified⟩ := exists_tail transparent.wellFormed above
        obtain ⟨wfAfter, view, queue, _⟩ := flushEntry_spec transparent.wellFormed cached modified
        obtain ⟨after, result, still, queueAfter⟩ := ih (transparent.flush wfAfter view)
        simp only [tail, modified, ne_eq, not_true_eq_false, if_false]
        exact ⟨after, result, still, queueAfter.trans queue⟩

theorem flushLRU_spec (transparent : Transparent pc ps expected) :
    ∃ after, sdfNewCacheFlushLRUModObject ps = some after ∧ Transparent pc after expected ∧
      after.requestQueue = ps.requestQueue := by
  unfold sdfNewCacheFlushLRUModObject
  cases tail : ps.modlru.getLast? with
  | none => exact ⟨ps, rfl, transparent, rfl⟩
  | some pce =>
    obtain ⟨cached, modified⟩ := tail_modified transparent.wellFormed tail
    obtain ⟨wfAfter, view, queue, _⟩ := flushEntry_spec transparent.wellFormed cached modified
    simp only [modified, ne_eq, not_true_eq_false, if_false]
    exact ⟨_, rfl, transparent.flush wfAfter view, queue⟩

/-! ### Runs -/

structure CacheWorld where
  slab : Slab
  expected : ObjectKey → Expected (List UInt8)
  /-- The requests in the order in which they were posted. -/
  posted : List CacheRequest
  /-- The requests in the order in which they were carried out. -/
  applied : List CacheRequest
  /-- The last action locked the slab and looked an object up. -/
  locked : Bool

open CacheWorld

inductive CacheAction where
  | post (request : CacheRequest)
  | lookUp (id : ObjectKey) (ctype : SdfContainerType) (curtime : ℕ)
  /-- Create or overwrite an object and mark it modified. -/
  | store (id : ObjectKey) (ctype : SdfContainerType) (curtime : ℕ) (data : List UInt8)
  | checkModifiedObjectLimit
  | flushLRUModObject

/-- The world after a locked look-up that left the given slab: what was pending has been carried out,
and is expected to have been carried out in the order of posting. -/
def CacheWorld.served (world : CacheWorld) (slab : Slab) : CacheWorld :=
  { world with
    slab := slab
    expected := world.slab.requestQueue.reverse.foldl CacheRequest.expect world.expected
    applied := world.applied ++ world.slab.requestQueue
    locked := true }

/-- The world after a locked look-up whose object was given new data. -/
def CacheWorld.stored (world : CacheWorld) (slab : Slab) (id : ObjectKey) (data : List UInt8) :
    CacheWorld :=
  { world.served slab with
    expected := update (world.served slab).expected id (.value (some data)) }

/-- The world after objects were flushed. -/
def CacheWorld.flushed (world : CacheWorld) (slab : Slab) : CacheWorld :=
  { world with slab := slab, locked := false }

def cacheStep (pc : CacheConfig) (world : CacheWorld) : CacheAction → Option CacheWorld
  | .post request => some { world with
      slab := sdfNewCachePostRequest world.slab request
      posted := world.posted ++ [request]
      locked := false }
  | .lookUp id ctype curtime =>
    (lockedGetCreate pc world.slab id ctype curtime).map fun (slab, _) => world.served slab
  | .store id ctype curtime data =>
    (lockedGetCreate pc world.slab id ctype curtime).bind fun (slab, ref) =>
      (fill pc slab ref data).map fun (slab, _) => world.stored slab id data
  | .checkModifiedObjectLimit =>
    (sdfNewCacheCheckModifiedObjectLimit pc world.slab).map world.flushed
  | .flushLRUModObject => (sdfNewCacheFlushLRUModObject world.slab).map world.flushed

/-- What the callers keep to. -/
def CacheAction.Legal (pc : CacheConfig) : CacheAction → Prop
  | .post request => Allowed pc request.id request.ctype request.size
  | .lookUp id ctype _ => Allowed pc id ctype 0
  | .store id ctype _ data => Allowed pc id ctype data.length
  | .checkModifiedObjectLimit => True
  | .flushLRUModObject => True

/-- The condition under which the cache is transparent: the slab has room for every object, and the
requests that a locked look-up finds read the same in both orders. -/
def CacheWorld.Orderly (pc : CacheConfig) (world : CacheWorld) : CacheAction → Prop
  | .post request => ∀ message, request.reqtype = .aprup message →
      Fits pc request.id message.data.length
  | .lookUp _ _ _ => world.slab.requestQueue.reverse = world.slab.requestQueue
  | .store id _ _ data =>
    world.slab.requestQueue.reverse = world.slab.requestQueue ∧ Fits pc id data.length
  | .checkModifiedObjectLimit => True
  | .flushLRUModObject => True

/-- All values are as expected; requests were carried out once each and in the order of posting, and
none is left after a locked look-up. -/
structure CacheWorld.Serves (world : CacheWorld) : Prop where
  met : ∀ id, (world.expected id).Met (world.slab.view.value id)
  inOrder : world.applied ++ world.slab.requestQueue.reverse = world.posted
  drained : world.locked = true → world.slab.requestQueue = []

structure CacheWorld.Sound (pc : CacheConfig) (world : CacheWorld) : Prop where
  transparent : Transparent pc world.slab world.expected
  inOrder : world.applied ++ world.slab.requestQueue.reverse = world.posted
  drained : world.locked = true → world.slab.requestQueue = []
  pending : ∀ request ∈ world.slab.requestQueue, request.Good pc

/-- An empty slab, with all its pages free. -/
def CacheWorld.fresh (pc : CacheConfig) (tmpEntry : CacheEntry) : CacheWorld where
  slab :=
    { tmpEntry := tmpEntry
      lru := []
      modlru := []
      bucket := fun _ => []
      heap := fun _ => tmpEntry
      freePages := range pc.pagesPerSlab
      modsizeWKeys := 0
      requestQueue := []
      written := [] }
  expected := fun _ => .value none
  posted := []
  applied := []
  locked := false

theorem fresh_sound (pc : CacheConfig) (tmpEntry : CacheEntry) :
    (CacheWorld.fresh pc tmpEntry).Sound pc where
  transparent :=
    { wellFormed :=
        { lruNodup := nodup_nil
          bucketNodup := fun _ => nodup_nil
          mem_bucket := fun _ _ => by simp [fresh]
          hashed := forall_mem_nil _
          once := forall_mem_nil _
          modlruNodup := nodup_nil
          mem_modlru := fun _ => by simp [fresh]
          modsize := rfl
          address := forall_mem_nil _
          pagesNodup := by simpa [Slab.layout, fresh] using nodup_range
          pagesCount := by simp [Slab.layout, fresh] }
      clean := by
        intro key line held
        cases held
      met := fun _ => rfl }
  inOrder := rfl
  drained := fun _ => rfl
  pending := forall_mem_nil _

variable {world : CacheWorld}

/-- A locked look-up carries out what is pending, in the order of the mailbox, and leaves the mailbox
empty. -/
theorem lockedGetCreate_spec (transparent : Transparent pc ps expected)
    (pending : ∀ request ∈ ps.requestQueue, request.Good pc)
    (valid : ctype ≠ .invalid) (short : id.key.length < pc.maxKeySize) (curtime : ℕ) :
    ∃ slab ref, lockedGetCreate pc ps id ctype curtime = some (slab, ref) ∧
      Transparent pc slab (ps.requestQueue.foldl CacheRequest.expect expected) ∧
      slab.requestQueue = [] ∧ Looked pc slab id ref := by
  have emptied : Transparent pc { ps with requestQueue := [] } expected :=
    ⟨{ transparent.wellFormed with }, transparent.clean, transparent.met⟩
  obtain ⟨middle, processes, still, queue⟩ := processPending_spec emptied pending
  obtain ⟨slab, ref, gets, wf, view, queueAfter, looked⟩ :=
    getCreate_spec still.wellFormed valid short curtime
  refine ⟨slab, ref, ?_, still.of_view wf view, queueAfter.trans queue, looked⟩
  rw [lockedGetCreate, processes, bind_some, gets]

section

variable (sound : world.Sound pc)
  (palindrome : world.slab.requestQueue.reverse = world.slab.requestQueue)

include sound palindrome

/-- What is pending is carried out as it is expected to be if it reads the same in both orders. -/
theorem CacheWorld.Sound.lockedGetCreate
    (valid : ctype ≠ .invalid) (short : id.key.length < pc.maxKeySize) (curtime : ℕ) :
    ∃ slab ref, FastCc.lockedGetCreate pc world.slab id ctype curtime = some (slab, ref) ∧
      Transparent pc slab (world.served slab).expected ∧ slab.requestQueue = [] ∧
      Looked pc slab id ref := by
  obtain ⟨slab, ref, gets, still, rest⟩ :=
    lockedGetCreate_spec sound.transparent sound.pending valid short curtime
  refine ⟨slab, ref, gets, ?_, rest⟩
  rw [served, palindrome]
  exact still

/-- Once the look-up is done and the object may have been filled, nothing is pending. -/
theorem CacheWorld.Sound.drain {next : CacheWorld} (empty : next.slab.requestQueue = [])
    (applied : next.applied = world.applied ++ world.slab.requestQueue)
    (posted : next.posted = world.posted) (still : Transparent pc next.slab next.expected) :
    next.Sound pc where
  transparent := still
  inOrder := by
    rw [empty, reverse_nil, append_nil, applied, posted, ← sound.inOrder, palindrome]
  drained _ := empty
  pending := empty ▸ forall_mem_nil _

end

theorem CacheWorld.Sound.flushed (sound : world.Sound pc) {slab : Slab}
    (still : Transparent pc slab world.expected)
    (queue : slab.requestQueue = world.slab.requestQueue) : (world.flushed slab).Sound pc where
  transparent := still
  inOrder := (congrArg (world.applied ++ ·.reverse) queue).trans sound.inOrder
  drained := nofun
  pending := queue ▸ sound.pending

theorem cacheStep_sound {action : CacheAction} (sound : world.Sound pc)
    (legal : action.Legal pc) (orderly : world.Orderly pc action) :
    ∃ next, cacheStep pc world action = some next ∧ next.Sound pc := by
  cases action with
  | post request =>
    refine ⟨_, rfl, ⟨⟨{ sound.transparent.wellFormed with }, sound.transparent.clean,
      sound.transparent.met⟩, ?_, nofun, ?_⟩⟩
    · rw [sdfNewCachePostRequest, reverse_cons, ← append_assoc, sound.inOrder]
    · exact forall_mem_cons.mpr ⟨⟨legal, orderly⟩, sound.pending⟩
  | lookUp id ctype curtime =>
    obtain ⟨slab, ref, gets, still, empty, _⟩ :=
      sound.lockedGetCreate orderly legal.1 legal.2.1 curtime
    exact ⟨world.served slab, by simp [cacheStep, gets],
      sound.drain orderly empty rfl rfl still⟩
  | store id ctype curtime data =>
    obtain ⟨slab, ref, gets, still, empty, looked⟩ :=
      sound.lockedGetCreate orderly.1 legal.1 legal.2.1 curtime
    obtain ⟨after, pce, base, evicted, fills, wf, _, queue, from', view⟩ :=
      fill_spec still.wellFormed looked legal.2.2 orderly.2
    exact ⟨world.stored after id data, by simp [cacheStep, gets, fills],
      sound.drain orderly.1 (queue.trans empty) rfl rfl (still.store wf from' view)⟩
  | checkModifiedObjectLimit =>
    simp only [cacheStep, sdfNewCacheCheckModifiedObjectLimit]
    split
    · exact ⟨_, rfl, sound.flushed sound.transparent rfl⟩
    · obtain ⟨slab, checks, still, queue⟩ := flushToLimit_spec _ sound.transparent
      exact ⟨world.flushed slab, by rw [checks, map_some], sound.flushed still queue⟩
  | flushLRUModObject =>
    obtain ⟨slab, flushes, still, queue⟩ := flushLRU_spec sound.transparent
    exact ⟨world.flushed slab, by simp [cacheStep, flushes],
      sound.flushed still queue⟩

/-- After every history whose look-ups find requests that read the same in both orders and whose
objects the slab has room for, the cache is transparent and its requests were carried out in order. -/
theorem cache_transparent_of_orderly (pc : CacheConfig) (tmpEntry : CacheEntry)
    (actions : List CacheAction) (admitted : Machine.Admitted (cacheStep pc)
      (fun world action => action.Legal pc ∧ world.Orderly pc action) (.fresh pc tmpEntry) actions) :
    ∃ world, run (cacheStep pc) (.fresh pc tmpEntry) actions = some world ∧ world.Serves := by
  obtain ⟨world, reached, sound⟩ := run_total
    (fun sound met => cacheStep_sound sound met.1 met.2) (fresh_sound pc tmpEntry) admitted
  exact ⟨world, reached, sound.transparent.met, sound.inOrder, sound.drained⟩

/-- Four pages of four bytes for objects of up to four bytes. -/
def sampleCache : CacheConfig where
  entrySize := 1
  pageDataSize := 4
  pagesPerSlab := 4
  maxKeySize := 2
  maxObjectSizeArg := 4
  modsizePerSlab := 8
  maxFlushesPerModCheck := 1
  hashFn := fun _ => (0, 0)
  entrySize_pos := Nat.one_pos
  entrySize_le := by decide
  maxObjEntrySize_le := by decide
  maxKeySize_le := by decide

/-- One page of eight bytes, where the size of an entry with its key is the larger limit. -/
def tightCache : CacheConfig where
  entrySize := 4
  pageDataSize := 8
  pagesPerSlab := 1
  maxKeySize := 2
  maxObjectSizeArg := 1
  modsizePerSlab := 8
  maxFlushesPerModCheck := 1
  hashFn := fun _ => (0, 0)
  entrySize_pos := by decide
  entrySize_le := by decide
  maxObjEntrySize_le := by decide
  maxKeySize_le := by decide

def sampleKey : ObjectKey := { cguid := 1, key := [7] }

def keyOf (byte : UInt8) : ObjectKey := { cguid := 1, key := [byte] }

def sampleEntry : CacheEntry where
  id := sampleKey
  objSize := 0
  ctype := .object
  state := .initial
  createtime := 0
  exptime := 0
  bucket := 0
  syndrome := 0
  data := []
  pages := []

def updates (byte : UInt8) : CacheRequest where
  reqtype := .aprup { data := [byte], createtime := 0, curtime := 0, exptime := 0 }
  id := sampleKey
  ctype := .object

/-- An update that is carried out by a look-up, stores that evict its object, and a second look-up. -/
def evictingHistory : List CacheAction :=
  [.post (updates 1), .lookUp sampleKey .object 0, .store (keyOf 1) .object 0 [1],
    .store (keyOf 2) .object 0 [2], .store (keyOf 3) .object 0 [3], .store (keyOf 4) .object 0 [4],
    .lookUp sampleKey .object 0]

theorem cache_transparent_evictingHistory :
    (run (cacheStep sampleCache) (.fresh sampleCache sampleEntry) evictingHistory).map
      (fun world => world.slab.written) = some [(sampleKey, [1])] ∧
    ∃ world, run (cacheStep sampleCache) (.fresh sampleCache sampleEntry) evictingHistory =
        some world ∧ world.Serves := by
  refine ⟨by decide, cache_transparent_of_orderly sampleCache sampleEntry evictingHistory ?_⟩
  refine .cons ⟨⟨nofun, by decide, by decide⟩, fun message brings => ?_⟩ rfl ?_
  · obtain rfl := RequestType.aprup.inj brings
    exact ⟨by decide, by decide⟩
  refine .cons ⟨⟨nofun, by decide, by decide⟩, rfl⟩ rfl ?_
  iterate 4 refine .cons ⟨⟨nofun, by decide, by decide⟩, rfl, by decide, by decide⟩ rfl ?_
  exact ⟨⟨⟨nofun, by decide, by decide⟩, rfl⟩, fun _ _ => trivial⟩

/-- Two updates of one object are posted, and the look-up that follows carries out the second first:
the object keeps the data of the first. And an object within the limit that the cache checks does not
fit into a slab made for the smaller limit that was asked for. -/
theorem later_update_overtaken :
    (∃ world, run (cacheStep sampleCache) (.fresh sampleCache sampleEntry)
        [.post (updates 1), .post (updates 2), .lookUp sampleKey .object 0] = some world ∧
      world.posted = [updates 1, updates 2] ∧ world.applied = [updates 2, updates 1] ∧
      world.slab.view.value sampleKey = some [1] ∧ ¬ world.Serves) ∧
    (CacheAction.store sampleKey .object 0 [1, 2, 3, 4]).Legal tightCache ∧
      cacheStep tightCache (.fresh tightCache sampleEntry) (.store sampleKey .object 0 [1, 2, 3, 4]) =
        none := by
  refine ⟨⟨_, rfl, rfl, rfl, rfl, fun serves => ?_⟩, ⟨nofun, by decide, by decide⟩, rfl⟩
  have met : some [(1 : UInt8)] = some [2] := serves.met sampleKey
  cases met

/-! ### The slab in order -/

/-- The slab has room for the object of an action. -/
def CacheAction.HasRoom (pc : CacheConfig) : CacheAction → Prop
  | .post request => ∀ message, request.reqtype = .aprup message →
      Fits pc request.id message.data.length
  | .store id _ _ data => Fits pc id data.length
  | .lookUp _ _ _ => True
  | .checkModifiedObjectLimit => True
  | .flushLRUModObject => True

/-- The lists, buckets and pages of the slab are in order, and what is not modified is as last
written. Nothing is said of the values. -/
structure CacheWorld.InOrder (pc : CacheConfig) (world : CacheWorld) : Prop where
  wellFormed : WellFormed pc world.slab []
  clean : world.slab.view.Clean
  pending : ∀ request ∈ world.slab.requestQueue, request.Good pc

/-- A slab in order is transparent where nothing is expected of it. -/
theorem CacheWorld.InOrder.transparent (inOrder : world.InOrder pc) :
    Transparent pc world.slab fun _ => .anything :=
  ⟨inOrder.wellFormed, inOrder.clean, fun _ => trivial⟩

theorem Transparent.inOrder (transparent : Transparent pc world.slab expected)
    (empty : world.slab.requestQueue = []) : world.InOrder pc :=
  ⟨transparent.wellFormed, transparent.clean, empty ▸ forall_mem_nil _⟩

theorem CacheWorld.InOrder.flushed (inOrder : world.InOrder pc) {slab : Slab}
    (still : Transparent pc slab expected)
    (queue : slab.requestQueue = world.slab.requestQueue) : (world.flushed slab).InOrder pc :=
  ⟨still.wellFormed, still.clean, queue ▸ inOrder.pending⟩

/-- One action keeps the slab in order, in whatever order it finds what is pending. -/
theorem cacheStep_inOrder {action : CacheAction} (inOrder : world.InOrder pc)
    (legal : action.Legal pc) (room : action.HasRoom pc) :
    ∃ next, cacheStep pc world action = some next ∧ next.InOrder pc := by
  cases action with
  | post request =>
    exact ⟨_, rfl, { inOrder.wellFormed with }, inOrder.clean,
      forall_mem_cons.mpr ⟨⟨legal, room⟩, inOrder.pending⟩⟩
  | lookUp id ctype curtime =>
    obtain ⟨slab, ref, gets, still, empty, -⟩ :=
      lockedGetCreate_spec inOrder.transparent inOrder.pending legal.1 legal.2.1 curtime
    exact ⟨world.served slab, by simp [cacheStep, gets], still.inOrder empty⟩
  | store id ctype curtime data =>
    obtain ⟨slab, ref, gets, still, empty, looked⟩ :=
      lockedGetCreate_spec inOrder.transparent inOrder.pending legal.1 legal.2.1 curtime
    obtain ⟨after, pce, base, evicted, fills, wf, -, queue, from', view⟩ :=
      fill_spec still.wellFormed looked legal.2.2 room
    exact ⟨world.stored after id data, by simp [cacheStep, gets, fills],
      (still.store wf from' view).inOrder (queue.trans empty)⟩
  | checkModifiedObjectLimit =>
    simp only [cacheStep, sdfNewCacheCheckModifiedObjectLimit]
    split
    · exact ⟨_, rfl, inOrder.flushed inOrder.transparent rfl⟩
    · obtain ⟨slab, checks, still, queue⟩ := flushToLimit_spec _ inOrder.transparent
      exact ⟨world.flushed slab, by rw [checks, map_some], inOrder.flushed still queue⟩
  | flushLRUModObject =>
    obtain ⟨slab, flushes, still, queue⟩ := flushLRU_spec inOrder.transparent
    exact ⟨world.flushed slab, by simp [cacheStep, flushes], inOrder.flushed still queue⟩

theorem run_inOrder (tmpEntry : CacheEntry) {actions : List CacheAction}
    (allowed : ∀ action ∈ actions, action.Legal pc ∧ action.HasRoom pc) :
    ∃ world, run (cacheStep pc) (.fresh pc tmpEntry) actions = some world ∧ world.InOrder pc :=
  have fresh := fresh_sound pc tmpEntry
  run_total (fun inOrder met => cacheStep_inOrder inOrder met.1 met.2)
    ⟨fresh.transparent.wellFormed, fresh.transparent.clean, fresh.pending⟩ (Admitted.of_forall allowed)

/-- After every history whose objects the slab has room for, the lists, buckets and pages of the slab
are in order, and what is not modified is as last written. -/
theorem cache_in_order (tmpEntry : CacheEntry) (actions : List CacheAction)
    (allowed : ∀ action ∈ actions, action.Legal pc ∧ action.HasRoom pc) :
    ∃ world, run (cacheStep pc) (.fresh pc tmpEntry) actions = some world ∧
      WellFormed pc world.slab [] ∧ world.slab.view.Clean := by
  obtain ⟨world, reached, inOrder⟩ := run_inOrder tmpEntry allowed
  exact ⟨world, reached, inOrder.wellFormed, inOrder.clean⟩

/-- Two updates of one object that are carried out in the wrong order, stores that evict it, an
overwrite and a flush. -/
def crowdedHistory : List CacheAction :=
  [.post (updates 1), .post (updates 2), .lookUp sampleKey .object 0,
    .store (keyOf 1) .object 0 [1], .store (keyOf 2) .object 0 [2], .store (keyOf 3) .object 0 [3],
    .store (keyOf 4) .object 0 [4], .store (keyOf 2) .object 0 [5, 6], .flushLRUModObject]

theorem cache_in_order_crowdedHistory :
    (run (cacheStep sampleCache) (.fresh sampleCache sampleEntry) crowdedHistory).map
      (fun world => (world.slab.lru.length, world.slab.modlru.length, world.slab.written.length)) =
        some (4, 3, 2) ∧
    ∃ world, run (cacheStep sampleCache) (.fresh sampleCache sampleEntry) crowdedHistory = some world ∧
      WellFormed sampleCache world.slab [] ∧ world.slab.view.Clean := by
  refine ⟨by decide, cache_in_order sampleEntry crowdedHistory ?_⟩
  have small : ∀ byte : UInt8, ∀ message, (updates byte).reqtype = .aprup message →
      Fits sampleCache sampleKey message.data.length := by
    intro byte message brings
    obtain rfl := RequestType.aprup.inj brings
    exact ⟨Nat.one_lt_two_pow (by decide), (by decide : 1 + 1 + 1 ≤ 4 * 4)⟩
  simp only [crowdedHistory, forall_mem_cons]
  refine ⟨⟨⟨nofun, by decide, by decide⟩, small 1⟩, ⟨⟨nofun, by decide, by decide⟩, small 2⟩,
    ⟨⟨nofun, by decide, by decide⟩, trivial⟩, ?_⟩
  refine ⟨?_, ?_, ?_, ?_, ?_, ⟨trivial, trivial⟩, forall_mem_nil _⟩ <;>
    exact ⟨⟨nofun, by decide, by decide⟩, by decide, by decide⟩

end Zetascale.FastCc
