import Zetascale.Cache.SlabRuns

/-!
# Objects that find space

`SDFNewCacheInit` compares the pages of a slab with the limit on objects that it was
given, and raises the limit afterwards. An object within the raised limit finds
space exactly if the pages of the whole slab are enough for it.
-/

namespace Zetascale.FastCc

open Function Machine

/-- A call ends with an object on the least number of pages that hold entry, key and data. -/
def Places (pc : CacheConfig) (id : ObjectKey) (size : ℕ) (outcome : Option (Slab × ℕ)) : Prop :=
  ∃ after pce, outcome = some (after, pce) ∧
    IsLeast {n | pc.entrySize + id.key.length + size ≤ n * pc.pageDataSize}
      (after.heap pce).pages.length

variable {pc : CacheConfig} {ps : Slab} {size : ℕ}

/-- The new object has the pages that were allocated. -/
theorem create_pages {middle : Slab} {address : ℕ} {rest : List ℕ} (unsized : ps.tmpEntry.objSize = 0)
    (allowed : size ≤ pc.maxObjectSize)
    (allocated : fastccObjectAlloc pc ps (pc.entrySize + ps.tmpEntry.id.key.length + size) =
      some (middle, address :: rest)) :
    ∃ after, sdfNewCacheCreateCacheObject pc ps size = some (after, address) ∧
      (after.heap address).pages = address :: rest := by
  unfold sdfNewCacheCreateCacheObject
  rw [if_neg (by simp [unsized, allowed]), allocated]
  refine ⟨_, rfl, ?_⟩
  by_cases modified : ps.tmpEntry.state = .modified <;>
    simp [addLruList, addModlruList, setEntry, modified]

theorem create_places_iff (wf : WellFormed pc ps []) (unsized : ps.tmpEntry.objSize = 0)
    (allowed : size ≤ pc.maxObjectSize) :
    Places pc ps.tmpEntry.id size (sdfNewCacheCreateCacheObject pc ps size) ↔
      pc.entrySize + ps.tmpEntry.id.key.length + size ≤ pc.pagesPerSlab * pc.pageDataSize := by
  constructor
  · rintro ⟨after, pce, made, -⟩
    by_contra exceeds
    unfold sdfNewCacheCreateCacheObject at made
    rw [if_neg (by simp [unsized, allowed]), alloc_none wf (not_le.mp exceeds)] at made
    cases made
  · intro room
    have entryPos := pc.entrySize_pos
    obtain ⟨middle, chain, allocated, result, least⟩ := alloc_spec wf (by omega) room
    obtain ⟨address, rest, rfl⟩ := List.exists_cons_of_ne_nil result.nonempty
    obtain ⟨after, made, pages⟩ := create_pages unsized allowed allocated
    exact ⟨after, address, made, pages ▸ least⟩

/-- Creating an object and overwriting one, whose size has 32 bits then, end with the least number of
pages exactly if the slab has that many. -/
theorem object_placed_iff (wf : WellFormed pc ps []) (allowed : size ≤ pc.maxObjectSize) :
    (ps.tmpEntry.objSize = 0 →
      (Places pc ps.tmpEntry.id size (sdfNewCacheCreateCacheObject pc ps size) ↔
        pc.entrySize + ps.tmpEntry.id.key.length + size ≤ pc.pagesPerSlab * pc.pageDataSize)) ∧
    ∀ pce ∈ ps.lru, size < 2 ^ 32 →
      (Places pc (ps.heap pce).id size (sdfNewCacheOverwriteCacheObject pc ps pce size) ↔
        pc.entrySize + (ps.heap pce).id.key.length + size ≤ pc.pagesPerSlab * pc.pageDataSize) := by
  refine ⟨fun unsized => create_places_iff wf unsized allowed, fun pce cached recorded => ?_⟩
  let tmp : CacheEntry := { ps.heap pce with objSize := 0, pages := [] }
  have wfTmp : WellFormed pc { ps with tmpEntry := tmp } [] := { wf with }
  obtain ⟨middle, removes, removed⟩ := remove_spec wfTmp cached false
  have kept : middle.tmpEntry = tmp := removed.tmpEntry
  have created := create_places_iff removed.wellFormed (by rw [kept]) allowed
  rw [kept] at created
  unfold sdfNewCacheOverwriteCacheObject
  simp only [Nat.mod_eq_of_lt recorded]
  rw [removes]
  exact created

/-- The slab has that many for every admitted object, if the limit asked for is not raised. -/
theorem room_of_limit {id : ObjectKey} (kept : pc.entrySize + pc.maxKeySize ≤ pc.maxObjectSizeArg)
    (short : id.key.length ≤ pc.maxKeySize) (allowed : size ≤ pc.maxObjectSize) :
    pc.entrySize + id.key.length + size ≤ pc.pagesPerSlab * pc.pageDataSize := by
  have accepted := pc.maxObjEntrySize_le
  rw [CacheConfig.maxObjectSize, max_eq_left kept] at allowed
  omega

/-- Four objects of one page each fill the slab; a look-up of another one follows. -/
def fillingHistory : List CacheAction :=
  [.store (keyOf 1) .object 0 [1], .store (keyOf 2) .object 0 [2], .store (keyOf 3) .object 0 [3],
    .store (keyOf 4) .object 0 [4], .lookUp (keyOf 5) .object 0]

/-- On the full slab an object of two pages is created, for which others are evicted, and each of the
four objects can be overwritten by one of two pages. -/
theorem object_placed_when_full :
    ∃ world, run (cacheStep sampleCache) (.fresh sampleCache sampleEntry) fillingHistory =
        some world ∧ world.slab.freePages = [] ∧ world.slab.lru.length = 4 ∧
      Places sampleCache (keyOf 5) 4 (sdfNewCacheCreateCacheObject sampleCache world.slab 4) ∧
      ∀ pce ∈ world.slab.lru, Places sampleCache (world.slab.heap pce).id 4
        (sdfNewCacheOverwriteCacheObject sampleCache world.slab pce 4) := by
  have allowed : ∀ action ∈ fillingHistory, action.Legal sampleCache ∧
      action.HasRoom sampleCache := by
    simp only [fillingHistory, List.forall_mem_cons]
    refine ⟨?_, ?_, ?_, ?_, ⟨⟨nofun, by decide, by decide⟩, trivial⟩, List.forall_mem_nil _⟩ <;>
      exact ⟨⟨nofun, by decide, by decide⟩, by decide, by decide⟩
  obtain ⟨world, reached, inOrder⟩ := run_inOrder sampleEntry allowed
  have filled : (run (cacheStep sampleCache) (.fresh sampleCache sampleEntry) fillingHistory).map
      (fun world => (world.slab.freePages, world.slab.tmpEntry.id, world.slab.tmpEntry.objSize,
        world.slab.lru.map fun pce => (world.slab.heap pce).id.key.length)) =
        some ([], keyOf 5, 0, [1, 1, 1, 1]) := by
    decide
  rw [reached, Option.map_some, Option.some.injEq, Prod.mk.injEq, Prod.mk.injEq, Prod.mk.injEq]
    at filled
  obtain ⟨free, key, unsized, lengths⟩ := filled
  have placed := @object_placed_iff sampleCache world.slab 4 inOrder.wellFormed (by decide)
  refine ⟨world, reached, free, ?_, ?_, fun pce cached => ?_⟩
  · rw [← List.length_map, lengths]
    rfl
  · rw [← key]
    exact (placed.1 unsized).mpr (by rw [key]; decide)
  · have one : (world.slab.heap pce).id.key.length ∈ [1, 1, 1, 1] :=
      lengths ▸ List.mem_map_of_mem cached
    have length : (world.slab.heap pce).id.key.length = 1 := by simpa using one
    exact (placed.2 pce cached (by decide)).mpr (by rw [length]; decide)

/-- Pages for one entry each, and objects of up to one byte asked for. -/
def oneByteObjects : CacheConfig :=
  { sampleCache with
    entrySize := 88, pageDataSize := 88, pagesPerSlab := 2, maxObjectSizeArg := 1
    entrySize_pos := by decide, entrySize_le := by decide, maxObjEntrySize_le := by decide }

/-- The limit is raised from one byte to 90, and 90 bytes with their entry need more than two pages. -/
theorem raised_limit_exceeds_slab : oneByteObjects.maxObjectSizeArg = 1 ∧
    sampleKey.key.length < oneByteObjects.maxKeySize ∧ 90 ≤ oneByteObjects.maxObjectSize ∧
    sdfNewCacheCreateCacheObject oneByteObjects (CacheWorld.fresh oneByteObjects sampleEntry).slab 90 =
      none :=
  ⟨rfl, by decide, by decide, rfl⟩

end Zetascale.FastCc
