import Zetascale.Cache.SlabLayout

/-!
# Allocating and filling objects

Space for a new object comes from the free pages and then from the entries at the
tail of the LRU list. Whatever is removed on the way is evicted as a cache evicts
it, so that after the object is filled the slab is the cache in which some objects
were evicted and this one stored.
-/

namespace Zetascale.FastCc

open WriteBack Function List Option CacheEntry

variable {pc : CacheConfig} {ps after : Slab} {held : List ℕ} {pce size : ℕ} {id : ObjectKey}

/-! ### Allocation -/

/-- The loop moves a front part of the free pages, until it has found enough or all, and the last page
only because the ones before it are not enough. -/
theorem takePages_spec (pc : CacheConfig) (size sizeFound : ℕ) (chain free : List ℕ) :
    ∃ taken rest, free = taken ++ rest ∧ takePages pc size sizeFound chain free =
        (sizeFound + taken.length * pc.pageDataSize, taken.reverse ++ chain, rest) ∧
      (size ≤ sizeFound + taken.length * pc.pageDataSize ∨ rest = []) ∧
      ∀ n < taken.length, sizeFound + n * pc.pageDataSize < size := by
  induction free generalizing sizeFound chain with
  | nil => exact ⟨[], [], rfl, by simp [takePages], .inr rfl, nofun⟩
  | cons page free ih =>
    unfold takePages
    split
    · next lacking =>
      obtain ⟨taken, rest, split, result, enough, last⟩ :=
        ih (sizeFound + pc.pageDataSize) (page :: chain)
      have size : sizeFound + pc.pageDataSize + taken.length * pc.pageDataSize =
          sizeFound + (page :: taken).length * pc.pageDataSize := by
        rw [length_cons, Nat.succ_mul]
        omega
      rw [size] at result enough
      refine ⟨page :: taken, rest, by rw [split]; rfl, by rw [result]; simp, enough, fun n less => ?_⟩
      cases n with
      | zero => simpa using lacking
      | succ n =>
        have before := last n (Nat.lt_of_succ_lt_succ less)
        rw [Nat.succ_mul]
        omega
    · next found =>
        exact ⟨[], page :: free, rfl, by simp, .inl (by simp; omega), nofun⟩

/-- The part of a slab that neither removals nor allocations touch. -/
structure Steady (ps after : Slab) : Prop where
  heap : after.heap = ps.heap
  tmpEntry : after.tmpEntry = ps.tmpEntry
  queue : after.requestQueue = ps.requestQueue
  lru : ∀ pce ∈ after.lru, pce ∈ ps.lru

theorem Steady.refl (ps : Slab) : Steady ps ps := ⟨rfl, rfl, rfl, fun _ cached => cached⟩

theorem Steady.trans {first second third : Slab} (before : Steady first second)
    (after : Steady second third) : Steady first third :=
  ⟨after.heap.trans before.heap, after.tmpEntry.trans before.tmpEntry, after.queue.trans before.queue,
    fun pce cached => before.lru pce (after.lru pce cached)⟩

theorem Removed.steady {wrbkFlag : Bool} (removed : Removed pc ps held pce wrbkFlag after) :
    Steady ps after :=
  ⟨removed.heap, removed.tmpEntry, removed.queue, fun _ still =>
    mem_of_mem_erase (removed.lru ▸ still)⟩

/-- What reclaiming adds to `reclaimed`: the pages that are free now and were not before. -/
def reclaimedBytes (pc : CacheConfig) (ps after : Slab) (reclaimed : ℕ) : ℕ :=
  reclaimed + (after.freePages.length - ps.freePages.length) * pc.pageDataSize

/-- Entries are evicted from the tail until enough is reclaimed or none is left. -/
structure Reclaimed (pc : CacheConfig) (size : ℕ) (held : List ℕ) (ps : Slab) (reclaimed : ℕ)
    (after : Slab) : Prop where
  more : ps.freePages.length ≤ after.freePages.length
  wellFormed : WellFormed pc after held
  steady : Steady ps after
  view : ∃ evicted : List ObjectKey, after.view = evicted.foldl Cache.evict ps.view
  done : size ≤ reclaimedBytes pc ps after reclaimed ∨ after.lru = []

theorem reclaim_nothing {reclaimed : ℕ} (wf : WellFormed pc ps held) (empty : ps.lru = []) :
    ∃ after, some (ps, reclaimed) = some (after, reclaimedBytes pc ps after reclaimed) ∧
      Reclaimed pc size held ps reclaimed after :=
  ⟨ps, by simp [reclaimedBytes], le_rfl, wf, Steady.refl ps, ⟨[], rfl⟩, .inr empty⟩

theorem reclaim_spec (size : ℕ) {turns : ℕ} (wf : WellFormed pc ps held) (reclaimed : ℕ)
    (bound : ps.lru.length ≤ turns) :
    ∃ after, reclaim pc size turns ps reclaimed = some (after, reclaimedBytes pc ps after reclaimed) ∧
      Reclaimed pc size held ps reclaimed after := by
  induction turns generalizing ps reclaimed with
  | zero => exact reclaim_nothing wf (length_eq_zero_iff.mp (Nat.le_zero.mp bound))
  | succ turns ih =>
    unfold reclaim
    cases tail : ps.lru.getLast? with
    | none => exact reclaim_nothing wf (getLast?_eq_none_iff.mp tail)
    | some pce =>
      have cached : pce ∈ ps.lru := mem_of_getLast? tail
      obtain ⟨middle, taken, removed⟩ := remove_spec wf cached true
      have shorter : middle.lru.length ≤ turns := by
        rw [removed.lru, length_erase_of_mem cached]
        omega
      have view : middle.view = ps.view.evict (ps.heap pce).id := by
        rw [removed.view wf cached, if_pos rfl]
      have freed : reclaimedBytes pc ps middle reclaimed =
          reclaimed + (ps.heap pce).pages.length * pc.pageDataSize := by
        rw [reclaimedBytes, removed.free, Nat.add_sub_cancel_left]
      simp only [taken]
      rw [← freed]
      by_cases enough : size ≤ reclaimedBytes pc ps middle reclaimed
      · rw [if_pos enough]
        exact ⟨middle, rfl, by rw [removed.free]; omega, removed.wellFormed, removed.steady,
          ⟨[(ps.heap pce).id], view⟩, .inl enough⟩
      · rw [if_neg enough]
        obtain ⟨after, result, rest⟩ :=
          ih removed.wellFormed (reclaimedBytes pc ps middle reclaimed) shorter
        have more := rest.more
        have before : ps.freePages.length ≤ middle.freePages.length := by
          rw [removed.free]
          omega
        have total : reclaimedBytes pc middle after (reclaimedBytes pc ps middle reclaimed) =
            reclaimedBytes pc ps after reclaimed := by
          simp only [reclaimedBytes, add_assoc, ← Nat.add_mul]
          congr 2
          omega
        obtain ⟨evicted, viewAfter⟩ := rest.view
        rw [total] at result
        refine ⟨after, result, le_trans before more, rest.wellFormed, removed.steady.trans rest.steady,
          ⟨(ps.heap pce).id :: evicted, ?_⟩, total ▸ rest.done⟩
        rw [viewAfter, view]
        rfl

theorem WellFormed.hold {free : List ℕ} {taken : List ℕ} (wf : WellFormed pc ps held)
    (split : ps.freePages = taken ++ free) :
    WellFormed pc { ps with freePages := free } (taken.reverse ++ held) := by
  have pages : ((taken.reverse ++ held) ++ (free ++ ps.lru.flatMap fun pce => (ps.heap pce).pages)).Perm
      (ps.layout held) := by
    rw [Slab.layout, split, append_assoc taken, ← append_assoc held]
    exact (((reverse_perm taken).append_right held).trans perm_append_comm).append_right _
  exact { wf with
    pagesNodup := pages.nodup_iff.mpr wf.pagesNodup
    pagesCount := pages.length_eq.trans wf.pagesCount }

/-- An allocation that the slab has pages for. -/
structure Allocated (pc : CacheConfig) (ps : Slab) (after : Slab) (chain : List ℕ) : Prop where
  wellFormed : WellFormed pc after chain
  steady : Steady ps after
  nonempty : chain ≠ []
  view : ∃ evicted : List ObjectKey, after.view = evicted.foldl Cache.evict ps.view

/-- Pages that no entry has are pages of the slab. -/
theorem WellFormed.loose_le (wf : WellFormed pc ps held) :
    held.length + ps.freePages.length ≤ pc.pagesPerSlab := by
  have count := wf.pagesCount
  simp only [Slab.layout, length_append] at count
  omega

theorem alloc_spec (wf : WellFormed pc ps []) (pos : 0 < size)
    (fits : size ≤ pc.pagesPerSlab * pc.pageDataSize) :
    ∃ after chain, fastccObjectAlloc pc ps size = some (after, chain) ∧ Allocated pc ps after chain ∧
      IsLeast {n | size ≤ n * pc.pageDataSize} chain.length := by
  obtain ⟨taken, rest, split, result, enough, last⟩ := takePages_spec pc size 0 [] ps.freePages
  simp only [zero_add, append_nil] at result enough last
  have wfHeld : WellFormed pc { ps with freePages := rest } taken.reverse := by
    simpa using wf.hold split
  have nonempty {chain : List ℕ} (found : size ≤ chain.length * pc.pageDataSize) : chain ≠ [] := by
    rintro rfl
    simp at found
    omega
  unfold fastccObjectAlloc
  rw [result]
  dsimp only
  by_cases short : taken.length * pc.pageDataSize < size
  · rw [if_pos short]
    obtain ⟨after, reclaimed, more, wfAfter, steady, ⟨evicted, view⟩, done⟩ :=
      reclaim_spec size wfHeld (taken.length * pc.pageDataSize) le_rfl
    obtain ⟨taken', rest', split', result', enough', last'⟩ := takePages_spec pc size
      (taken.length * pc.pageDataSize) taken.reverse after.freePages
    have noneLeft : rest = [] := enough.resolve_left (by omega)
    subst noneLeft
    -- where nothing is left to evict, all pages of the slab are held or free
    have all : size ≤ taken.length * pc.pageDataSize + after.freePages.length * pc.pageDataSize := by
      rcases done with reached | empty
      · simpa [reclaimedBytes] using reached
      · have count := wfAfter.pagesCount
        simp only [Slab.layout, empty, flatMap_nil, append_nil, length_append,
          length_reverse] at count
        rw [← Nat.add_mul, count]
        exact fits
    have covered : size ≤ taken.length * pc.pageDataSize + taken'.length * pc.pageDataSize := by
      rcases enough' with reached | empty
      · exact reached
      · rw [empty, append_nil] at split'
        rw [← split']
        exact all
    simp only [reclaimed, result', reclaimedBytes, length_nil, Nat.sub_zero]
    rw [if_neg (by omega), if_neg (by omega)]
    have found : size ≤ (taken'.reverse ++ taken.reverse).length * pc.pageDataSize := by
      rwa [length_append, length_reverse, length_reverse, Nat.add_mul, add_comm]
    refine ⟨_, _, rfl, ⟨wfAfter.hold split', { steady with }, nonempty found, evicted, view⟩, found,
      fun n (holds : size ≤ _) => not_lt.mp fun fewer => absurd holds (not_le.mpr ?_)⟩
    rw [length_append, length_reverse, length_reverse] at fewer
    rcases lt_or_ge n taken.length with before | after
    · exact last n before
    · obtain ⟨more, rfl⟩ := Nat.exists_eq_add_of_le after
      rw [Nat.add_mul]
      exact last' more (by omega)
  · rw [if_neg short]
    have found : size ≤ taken.reverse.length * pc.pageDataSize := by
      rw [length_reverse]
      exact not_lt.mp short
    refine ⟨_, _, rfl, ⟨wfHeld, ⟨rfl, rfl, rfl, fun _ cached => cached⟩, nonempty found, [], rfl⟩, found,
      fun n (holds : size ≤ _) => not_lt.mp fun fewer => absurd holds (not_le.mpr (last n ?_))⟩
    rwa [length_reverse] at fewer

/-- What exceeds the slab is not allocated, whatever is evicted. -/
theorem alloc_none (wf : WellFormed pc ps []) (exceeds : pc.pagesPerSlab * pc.pageDataSize < size) :
    fastccObjectAlloc pc ps size = none := by
  obtain ⟨taken, rest, split, result, -⟩ := takePages_spec pc size 0 [] ps.freePages
  simp only [zero_add, append_nil] at result
  have wfHeld : WellFormed pc { ps with freePages := rest } taken.reverse := by
    simpa using wf.hold split
  have few {pages : ℕ} (upTo : pages ≤ pc.pagesPerSlab) : pages * pc.pageDataSize < size :=
    (Nat.mul_le_mul_right _ upTo).trans_lt exceeds
  obtain ⟨after, reclaimed, outcome⟩ := reclaim_spec size wfHeld (taken.length * pc.pageDataSize) le_rfl
  have loose := wfHeld.loose_le
  have looseAfter := outcome.wellFormed.loose_le
  rw [length_reverse] at loose looseAfter
  unfold fastccObjectAlloc
  simp only [result, if_pos (few (Nat.le_of_add_right_le loose)), reclaimed]
  rw [if_pos]
  rw [reclaimedBytes, ← Nat.add_mul]
  exact few (by omega)

/-! ### Changing an entry in place -/

/-- What the new entry has in common with the old one, all entries keep. -/
theorem update_same {α : Type} (field : CacheEntry → α) {entry : CacheEntry}
    (same : field entry = field (ps.heap pce)) (other : ℕ) :
    field (update ps.heap pce entry other) = field (ps.heap other) := by
  by_cases here : other = pce
  · rw [here, update_self, same]
  · rw [update_of_ne here]

/-- An entry may change its data, times and state where it lies, as long as the list of modified
entries and its sum follow. -/
theorem WellFormed.rewrite (wf : WellFormed pc ps held) (pce : ℕ) (entry : CacheEntry)
    (id : entry.id = (ps.heap pce).id) (bucket : entry.bucket = (ps.heap pce).bucket)
    (syndrome : entry.syndrome = (ps.heap pce).syndrome) (pages : entry.pages = (ps.heap pce).pages)
    (modlru : List ℕ) (modsize : ℕ) (nodup : modlru.Nodup) (members : ∀ other, other ∈ modlru ↔
      other ∈ ps.lru ∧ (update ps.heap pce entry other).state = .modified)
    (sum : modsize = (modlru.map fun other => (update ps.heap pce entry other).weight).sum) :
    WellFormed pc { ps with
      heap := update ps.heap pce entry, modlru := modlru, modsizeWKeys := modsize } held := by
  have ids := update_same CacheEntry.id id
  have buckets := update_same CacheEntry.bucket bucket
  have syndromes := update_same CacheEntry.syndrome syndrome
  have chains := update_same CacheEntry.pages pages
  refine ⟨wf.lruNodup, wf.bucketNodup, ?_, ?_, ?_, nodup, members, sum, ?_, ?_, ?_⟩
  · intro h other
    rw [buckets]
    exact wf.mem_bucket h other
  · intro other cached
    rw [ids, buckets, syndromes]
    exact wf.hashed other cached
  · intro first firstCached second secondCached
    rw [ids, ids]
    exact wf.once first firstCached second secondCached
  · intro other cached
    rw [chains]
    exact wf.address other cached
  · simp only [Slab.layout, chains]
    exact wf.pagesNodup
  · simp only [Slab.layout, chains]
    exact wf.pagesCount

/-- As a cache, the slab has a new line for the object. -/
theorem setEntry_view (wf : WellFormed pc ps held) (cached : pce ∈ ps.lru) (entry : CacheEntry)
    (id : entry.id = (ps.heap pce).id) (lru : after.lru = ps.lru)
    (heap : after.heap = update ps.heap pce entry) :
    after.view = { line := update ps.view.line (ps.heap pce).id (some entry.line)
                   written := after.written } := by
  have ids := update_same CacheEntry.id id
  have found (key : ObjectKey) : after.find key = ps.find key := by
    simp [Slab.find, lru, heap, ids]
  have lines : after.view.line = update ps.view.line (ps.heap pce).id (some entry.line) := by
    funext key
    simp only [Slab.view, found, heap]
    by_cases here : key = (ps.heap pce).id
    · subst here
      rw [wf.find cached, map_some, update_self, update_self]
    · rw [update_of_ne here]
      cases at' : ps.find key with
      | none => rfl
      | some other =>
        have ne : other ≠ pce := by
          rintro rfl
          exact here ((find_eq_some_iff wf.once).mp at').2.symm
        rw [map_some, map_some, update_of_ne ne]
  rw [← lines]
  rfl

/-- A change that leaves state and weight alone leaves the list of modified entries alone. -/
theorem setEntry_wellFormed (wf : WellFormed pc ps held) {entry : CacheEntry}
    (id : entry.id = (ps.heap pce).id) (bucket : entry.bucket = (ps.heap pce).bucket)
    (syndrome : entry.syndrome = (ps.heap pce).syndrome) (pages : entry.pages = (ps.heap pce).pages)
    (state : entry.state = (ps.heap pce).state) (objSize : entry.objSize = (ps.heap pce).objSize) :
    WellFormed pc (setEntry ps pce entry) held := by
  refine wf.rewrite pce entry id bucket syndrome pages _ _ wf.modlruNodup (fun other => ?_) ?_
  · rw [wf.mem_modlru, update_same CacheEntry.state state]
  · rw [wf.modsize]
    congr 2
    funext other
    rw [update_same CacheEntry.weight (by rw [weight, weight, objSize, id])]

/-- The sum over modified entries does not see an entry that is not among them. -/
theorem sum_weight_update {modlru : List ℕ} (absent : pce ∉ modlru) (entry : CacheEntry) :
    (modlru.map fun other => (update ps.heap pce entry other).weight) =
      modlru.map fun other => (ps.heap other).weight := by
  refine map_congr_left fun other listed => ?_
  have ne : other ≠ pce := by
    rintro rfl
    exact absent listed
  rw [update_of_ne ne]

theorem markModified_spec (wf : WellFormed pc ps held) (cached : pce ∈ ps.lru) :
    WellFormed pc (markModified ps pce) held ∧ (markModified ps pce).heap =
        update ps.heap pce { ps.heap pce with state := .modified } ∧
      (markModified ps pce).lru = ps.lru ∧ (markModified ps pce).written = ps.written ∧
      (markModified ps pce).requestQueue = ps.requestQueue := by
  unfold markModified
  by_cases modified : (ps.heap pce).state = .modified
  · rw [if_pos modified]
    refine ⟨wf, ?_, rfl, rfl, rfl⟩
    have same : ({ ps.heap pce with state := .modified } : CacheEntry) = ps.heap pce := by rw [← modified]
    rw [same, update_eq_self]
  · rw [if_neg modified]
    have absent : pce ∉ ps.modlru := fun listed => modified ((wf.mem_modlru pce).mp listed).2
    have result : addModObjectStats (setState ps pce .modified) pce = { ps with
        heap := update ps.heap pce { ps.heap pce with state := .modified }
        modlru := pce :: ps.modlru
        modsizeWKeys := ps.modsizeWKeys + (ps.heap pce).weight } := by
      simp [addModObjectStats, addModlruList, setState, setEntry, weight]
    rw [result]
    refine ⟨wf.rewrite pce { ps.heap pce with state := .modified } rfl rfl rfl rfl _ _
      (nodup_cons.mpr ⟨absent, wf.modlruNodup⟩) ?_ ?_, rfl,
      rfl, rfl, rfl⟩
    · intro other
      rw [mem_cons, wf.mem_modlru]
      by_cases here : other = pce
      · subst here
        simp [cached]
      · simp [here]
    · rw [map_cons, sum_cons, sum_weight_update absent, update_self, wf.modsize]
      simp only [weight]
      omega

theorem flushEntry_spec (wf : WellFormed pc ps held) (cached : pce ∈ ps.lru)
    (modified : (ps.heap pce).state = .modified) :
    WellFormed pc (flushEntry ps pce) held ∧ (flushEntry ps pce).view = ps.view.flush (ps.heap pce).id ∧
      (flushEntry ps pce).requestQueue = ps.requestQueue ∧ (flushEntry ps pce).lru = ps.lru ∧
      (flushEntry ps pce).heap = update ps.heap pce { ps.heap pce with state := .shared } := by
  have listed : pce ∈ ps.modlru := (wf.mem_modlru pce).mpr ⟨cached, modified⟩
  have result : flushEntry ps pce = { ps with
      heap := update ps.heap pce { ps.heap pce with state := .shared }
      modlru := ps.modlru.erase pce
      modsizeWKeys := ps.modsizeWKeys - (ps.heap pce).weight
      written := ((ps.heap pce).id, (ps.heap pce).data) :: ps.written } := by
    simp [flushEntry, subtractModObjectStats, modlruRemove, wrbkFn, setState, setEntry, modified]
  have absent : pce ∉ ps.modlru.erase pce := wf.modlruNodup.not_mem_erase
  have rewritten : WellFormed pc (flushEntry ps pce) held := by
    rw [result]
    have total := ((perm_cons_erase listed).map fun pce => (ps.heap pce).weight).sum_eq
    rw [map_cons, sum_cons] at total
    have base := wf.rewrite pce { ps.heap pce with state := .shared } rfl rfl rfl rfl
      (ps.modlru.erase pce) (ps.modsizeWKeys - (ps.heap pce).weight) (wf.modlruNodup.erase pce) ?_ ?_
    · exact { base with }
    · intro other
      rw [wf.modlruNodup.mem_erase_iff, wf.mem_modlru]
      by_cases here : other = pce
      · subst here
        simp
      · simp [here]
    · rw [sum_weight_update absent, wf.modsize, total]
      omega
  refine ⟨rewritten, ?_, by rw [result], by rw [result], by rw [result]⟩
  have dirty : ps.view.line (ps.heap pce).id = some ⟨(ps.heap pce).data, true⟩ := by
    rw [wf.line cached]
    simp [line, modified]
  have heap : (flushEntry ps pce).heap =
      update ps.heap pce { ps.heap pce with state := .shared } := by rw [result]
  rw [Cache.flush_of_dirty dirty, setEntry_view wf cached { ps.heap pce with state := .shared } rfl
    (by rw [result]) heap, result]
  rfl

/-! ### Creating and overwriting -/

/-- The transient entry is ready for a new object of its key. -/
structure Ready (pc : CacheConfig) (ps : Slab) (id : ObjectKey) : Prop where
  key : ps.tmpEntry.id = id
  objSize : ps.tmpEntry.objSize = 0
  hashed : pc.hashFn id = (ps.tmpEntry.bucket, ps.tmpEntry.syndrome)
  absent : ∀ pce ∈ ps.lru, (ps.heap pce).id ≠ id

/-- The slab has room for an object of the key and the size, whose length can be recorded. -/
structure Fits (pc : CacheConfig) (id : ObjectKey) (size : ℕ) : Prop where
  recorded : size < 2 ^ 32
  room : pc.entrySize + id.key.length + size ≤ pc.pagesPerSlab * pc.pageDataSize

/-- The slab with a new entry at the head of its lists. -/
def Slab.inserted (ps : Slab) (address : ℕ) (entry : CacheEntry) : Slab :=
  { ps with
    heap := update ps.heap address entry
    lru := address :: ps.lru
    modlru := if entry.state = .modified then address :: ps.modlru else ps.modlru
    modsizeWKeys := if entry.state = .modified then ps.modsizeWKeys + entry.weight
      else ps.modsizeWKeys
    bucket := update ps.bucket entry.bucket (address :: ps.bucket entry.bucket) }

open Slab

theorem WellFormed.insert {address : ℕ} {rest : List ℕ} (wf : WellFormed pc ps (address :: rest))
    (entry : CacheEntry) (hashed : pc.hashFn entry.id = (entry.bucket, entry.syndrome))
    (pages : entry.pages = address :: rest) (absent : ∀ pce ∈ ps.lru, (ps.heap pce).id ≠ entry.id) :
    WellFormed pc (ps.inserted address entry) [] := by
  have new : address ∉ ps.lru := wf.fresh (mem_append_left _ mem_cons_self)
  have others {pce : ℕ} (cached : pce ∈ ps.lru) :
      update ps.heap address entry pce = ps.heap pce := by
    refine update_of_ne ?_ _ _
    rintro rfl
    exact new cached
  have unlisted : address ∉ ps.modlru := fun listed => new ((wf.mem_modlru address).mp listed).1
  have chains : ((address :: ps.lru).flatMap fun pce => (update ps.heap address entry pce).pages) =
      (address :: rest) ++ ps.lru.flatMap fun pce => (ps.heap pce).pages := by
    rw [flatMap_cons, update_self, pages]
    congr 1
    exact flatMap_congr fun pce cached => by rw [others cached]
  have moved : (([] : List ℕ) ++ (ps.freePages ++ ((address :: ps.lru).flatMap fun pce =>
      (update ps.heap address entry pce).pages))).Perm (ps.layout (address :: rest)) := by
    rw [chains, nil_append, ← append_assoc, layout, ← append_assoc]
    exact perm_append_comm.append_right _
  refine ⟨nodup_cons.mpr ⟨new, wf.lruNodup⟩, ?_, ?_, ?_, ?_, ?_, ?_, ?_, ?_,
    moved.nodup_iff.mpr wf.pagesNodup, moved.length_eq.trans wf.pagesCount⟩ <;>
    dsimp only [inserted]
  · refine (forall_update_iff ps.bucket fun _ => Nodup).mpr ⟨?_, fun h _ => wf.bucketNodup h⟩
    exact nodup_cons.mpr ⟨fun listed => new ((wf.mem_bucket _ _).mp listed).1, wf.bucketNodup _⟩
  · intro h pce
    by_cases self : pce = address
    · subst self
      by_cases here : h = entry.bucket
      · subst here
        simp
      · rw [update_of_ne here, wf.mem_bucket]
        simp [new, Ne.symm here]
    · have listed : pce ∈ update ps.bucket entry.bucket (address :: ps.bucket entry.bucket) h ↔
          pce ∈ ps.bucket h := by
        by_cases here : h = entry.bucket
        · subst here
          simp [self]
        · rw [update_of_ne here]
      rw [listed, wf.mem_bucket, mem_cons, update_of_ne self]
      simp [self]
  · intro pce cached
    rcases mem_cons.mp cached with rfl | before
    · rw [update_self]
      exact hashed
    · rw [others before]
      exact wf.hashed pce before
  · intro first firstCached second secondCached same
    rcases mem_cons.mp firstCached with rfl | firstBefore <;>
      rcases mem_cons.mp secondCached with rfl | secondBefore
    · rfl
    · rw [update_self, others secondBefore] at same
      exact absurd same.symm (absent second secondBefore)
    · rw [update_self, others firstBefore] at same
      exact absurd same (absent first firstBefore)
    · rw [others firstBefore, others secondBefore] at same
      exact wf.once first firstBefore second secondBefore same
  · split
    · exact nodup_cons.mpr ⟨unlisted, wf.modlruNodup⟩
    · exact wf.modlruNodup
  · intro pce
    by_cases self : pce = address
    · subst self
      split
      · next modified => simp [modified]
      · next clean => simp [clean, unlisted]
    · rw [update_of_ne self]
      split
      · rw [mem_cons, mem_cons, wf.mem_modlru]
        simp [self]
      · rw [mem_cons, wf.mem_modlru]
        simp [self]
  · split
    · rw [map_cons, sum_cons, sum_weight_update unlisted, update_self, wf.modsize]
      exact add_comm _ _
    · rw [sum_weight_update unlisted, wf.modsize]
  · intro pce cached
    rcases mem_cons.mp cached with rfl | before
    · rw [update_self, pages]
      exact mem_cons_self
    · rw [others before]
      exact wf.address pce before

theorem inserted_view {address : ℕ} (new : address ∉ ps.lru) (entry : CacheEntry) :
    (ps.inserted address entry).view =
      { line := update ps.view.line entry.id (some entry.line), written := ps.written } := by
  have lines : (ps.inserted address entry).view.line =
      update ps.view.line entry.id (some entry.line) := by
    funext key
    by_cases here : key = entry.id
    · subst here
      simp [view, find, inserted]
    · have others : ∀ pce ∈ ps.lru, update ps.heap address entry pce = ps.heap pce := by
        intro pce cached
        refine update_of_ne ?_ _ _
        rintro rfl
        exact new cached
      have found : (ps.lru.find? fun pce => (update ps.heap address entry pce).id = key) =
          ps.lru.find? fun pce => (ps.heap pce).id = key :=
        find?_congr fun pce cached => by rw [others pce cached]
      have skipped : (ps.inserted address entry).find key = ps.find key := by
        simp only [find, inserted, find?_cons, update_self, Ne.symm here, decide_false]
        exact found
      rw [update_of_ne here]
      show ((ps.inserted address entry).find key).map
        (fun pce => (update ps.heap address entry pce).line) =
          (ps.find key).map fun pce => (ps.heap pce).line
      rw [skipped]
      cases at' : ps.find key with
      | none => rfl
      | some pce => rw [map_some, map_some, others pce (mem_of_find?_eq_some at')]
  rw [← lines]
  rfl

/-- The cache with a line for the object, whatever else it holds. -/
def withLine (cache : Cache ObjectKey (List UInt8)) (id : ObjectKey) (entry : CacheEntry) :
    Cache ObjectKey (List UInt8) :=
  { cache with line := update cache.line id (some entry.line) }

/-- What creating an object makes of a slab, whatever the new pages hold. -/
structure Created (pc : CacheConfig) (ps : Slab) (key : ObjectKey) (size : ℕ) (after : Slab)
    (pce : ℕ) : Prop where
  wellFormed : WellFormed pc after []
  cached : pce ∈ after.lru
  id : (after.heap pce).id = key
  objSize : (after.heap pce).objSize = size
  queue : after.requestQueue = ps.requestQueue
  view : ∃ evicted : List ObjectKey,
    after.view = withLine (evicted.foldl Cache.evict ps.view) key (after.heap pce)

theorem create_spec (wf : WellFormed pc ps []) (ready : Ready pc ps id)
    (allowed : size ≤ pc.maxObjectSize) (fits : Fits pc id size) :
    ∃ after pce, sdfNewCacheCreateCacheObject pc ps size = some (after, pce) ∧
      Created pc ps id size after pce := by
  have pos : 0 < pc.entrySize + ps.tmpEntry.id.key.length + size := by
    have entryPos := pc.entrySize_pos
    omega
  obtain ⟨middle, chain, allocated, result, -⟩ :=
    alloc_spec wf pos (by rw [ready.key]; exact fits.room)
  obtain ⟨address, rest, rfl⟩ := exists_cons_of_ne_nil result.nonempty
  have absent : ∀ pce ∈ middle.lru, (middle.heap pce).id ≠ ps.tmpEntry.id := by
    intro pce cached
    rw [result.steady.heap, ready.key]
    exact ready.absent pce (result.steady.lru pce cached)
  let new : CacheEntry := { ps.tmpEntry with
    objSize := size
    data := replicate size 0
    pages := address :: rest }
  have hashed : pc.hashFn new.id = (new.bucket, new.syndrome) := by
    rw [ready.key, ready.hashed]
  have outcome : sdfNewCacheCreateCacheObject pc ps size =
      some (middle.inserted address new, address) := by
    unfold sdfNewCacheCreateCacheObject
    rw [if_neg (by simp [ready.objSize, allowed]), allocated]
    simp only [Nat.mod_eq_of_lt fits.recorded, addLruList, addModlruList, setEntry, inserted]
    by_cases modified : ps.tmpEntry.state = .modified <;> simp [modified, new]
  have fresh : address ∉ middle.lru :=
    result.wellFormed.fresh (mem_append_left _ mem_cons_self)
  have here : (middle.inserted address new).heap address = new := update_self ..
  refine ⟨_, address, outcome, ⟨result.wellFormed.insert new hashed rfl absent, mem_cons_self, ?_, ?_,
    result.steady.queue, ?_⟩⟩
  · rw [here]
    exact ready.key
  · rw [here]
  · obtain ⟨evicted, view⟩ := result.view
    refine ⟨evicted, ?_⟩
    rw [inserted_view fresh, here, ← view, ← ready.key]
    rfl

theorem Created.fill {data : List UInt8} (created : Created pc ps id data.length after pce) :
    ∃ evicted : List ObjectKey, (markModified (sdfNewCacheCopyIntoObject after pce data) pce).view =
        (evicted.foldl Cache.evict ps.view).store id data ∧
      WellFormed pc (markModified (sdfNewCacheCopyIntoObject after pce data) pce) [] ∧
      pce ∈ (markModified (sdfNewCacheCopyIntoObject after pce data) pce).lru ∧
      (markModified (sdfNewCacheCopyIntoObject after pce data) pce).requestQueue = ps.requestQueue := by
  let copied : CacheEntry := { after.heap pce with data := data }
  have copy : sdfNewCacheCopyIntoObject after pce data = setEntry after pce copied := by
    unfold sdfNewCacheCopyIntoObject
    rw [created.objSize, take_length]
  have wfCopy : WellFormed pc (setEntry after pce copied) [] :=
    setEntry_wellFormed created.wellFormed rfl rfl rfl rfl rfl rfl
  have viewCopy := setEntry_view created.wellFormed created.cached copied rfl
    (show (setEntry after pce copied).lru = after.lru from rfl) rfl
  obtain ⟨wfMarked, heap, lru, written, queue⟩ := markModified_spec wfCopy created.cached
  obtain ⟨evicted, view⟩ := created.view
  rw [copy]
  refine ⟨evicted, ?_, wfMarked, by rw [lru]; exact created.cached, by rw [queue]; exact created.queue⟩
  have here : (setEntry after pce copied).heap pce = copied := update_self ..
  rw [setEntry_view wfCopy created.cached _ (by rw [here]) lru heap, viewCopy, written, here, created.id]
  simp only [update_idem, view, withLine, Cache.store]
  have same : after.view.written = (withLine (evicted.foldl Cache.evict ps.view) id
      (after.heap pce)).written := by rw [view]
  congr 1

end Zetascale.FastCc
