import Zetascale.Cache.FastCc
import Zetascale.Lib.WriteBack

/-!
# What a slab keeps in order

`WellFormed` ties the lists of a slab together: the bucket lists and the LRU list
hold the same entries, the modified ones are those on the list of modified entries
and `modsize_w_keys` adds them up, an object is cached once, and every page is free,
part of one object or held by an allocation under way. `Slab.view` is the slab as a
write-back cache. The operations on one entry are then operations of that cache.
-/

namespace Zetascale.FastCc

open WriteBack Function List

variable {pc : CacheConfig} {ps : Slab} {held : List ℕ} {pce : ℕ} {id : ObjectKey}

/-- All pages of a slab: those held by an allocation, the free ones and those of objects. -/
def Slab.layout (ps : Slab) (held : List ℕ) : List ℕ :=
  held ++ (ps.freePages ++ ps.lru.flatMap fun pce => (ps.heap pce).pages)

open Slab

structure WellFormed (pc : CacheConfig) (ps : Slab) (held : List ℕ) : Prop where
  lruNodup : ps.lru.Nodup
  bucketNodup : ∀ h, (ps.bucket h).Nodup
  mem_bucket : ∀ h pce, pce ∈ ps.bucket h ↔ pce ∈ ps.lru ∧ (ps.heap pce).bucket = h
  hashed : ∀ pce ∈ ps.lru, pc.hashFn (ps.heap pce).id = ((ps.heap pce).bucket, (ps.heap pce).syndrome)
  once : ∀ pce ∈ ps.lru, ∀ other ∈ ps.lru, (ps.heap pce).id = (ps.heap other).id → pce = other
  modlruNodup : ps.modlru.Nodup
  mem_modlru : ∀ pce, pce ∈ ps.modlru ↔ pce ∈ ps.lru ∧ (ps.heap pce).state = .modified
  modsize : ps.modsizeWKeys = (ps.modlru.map fun pce => (ps.heap pce).weight).sum
  address : ∀ pce ∈ ps.lru, pce ∈ (ps.heap pce).pages
  pagesNodup : (ps.layout held).Nodup
  pagesCount : (ps.layout held).length = pc.pagesPerSlab

/-- The line of the cache that an entry is. -/
def CacheEntry.line (entry : CacheEntry) : Line (List UInt8) where
  data := entry.data
  dirty := entry.state = .modified

/-- The cached entry of an object. -/
def Slab.find (ps : Slab) (id : ObjectKey) : Option ℕ :=
  ps.lru.find? fun pce => (ps.heap pce).id = id

/-- The slab as a write-back cache. -/
def Slab.view (ps : Slab) : Cache ObjectKey (List UInt8) where
  line id := (ps.find id).map fun pce => (ps.heap pce).line
  written := ps.written

theorem find_eq_some_iff (once : ∀ pce ∈ ps.lru, ∀ other ∈ ps.lru,
      (ps.heap pce).id = (ps.heap other).id → pce = other) :
    ps.find id = some pce ↔ pce ∈ ps.lru ∧ (ps.heap pce).id = id := by
  constructor
  · intro found
    exact ⟨mem_of_find?_eq_some found, by simpa using find?_some found⟩
  · rintro ⟨cached, same⟩
    cases found : ps.find id with
    | none =>
      have absent := find?_eq_none.mp found pce cached
      simp [same] at absent
    | some other =>
      have otherCached := mem_of_find?_eq_some found
      have otherSame : (ps.heap other).id = id := by simpa using find?_some found
      rw [once other otherCached pce cached (otherSame.trans same.symm)]

theorem find_eq_none_iff : ps.find id = none ↔ ∀ pce ∈ ps.lru, (ps.heap pce).id ≠ id := by
  simp [find]

namespace WellFormed

section

variable (wf : WellFormed pc ps held)

include wf

theorem find (cached : pce ∈ ps.lru) : ps.find (ps.heap pce).id = some pce :=
  (find_eq_some_iff wf.once).mpr ⟨cached, rfl⟩

theorem line (cached : pce ∈ ps.lru) : ps.view.line (ps.heap pce).id = some (ps.heap pce).line := by
  simp [view, wf.find cached]

theorem search (id : ObjectKey) : ((ps.bucket (pc.hashFn id).1).find? fun pce =>
      (ps.heap pce).syndrome = (pc.hashFn id).2 ∧ (ps.heap pce).id = id) = ps.find id := by
  cases found : ps.find id with
  | none =>
    rw [find?_eq_none]
    intro pce listed matched
    have cached := ((wf.mem_bucket _ _).mp listed).1
    exact find_eq_none_iff.mp found pce cached (of_decide_eq_true matched).2
  | some pce =>
    obtain ⟨cached, same⟩ := (find_eq_some_iff wf.once).mp found
    have hash := wf.hashed pce cached
    rw [same] at hash
    have listed : pce ∈ ps.bucket (pc.hashFn id).1 :=
      (wf.mem_bucket _ _).mpr ⟨cached, by rw [hash]⟩
    cases searched : (ps.bucket (pc.hashFn id).1).find? fun pce =>
        (ps.heap pce).syndrome = (pc.hashFn id).2 ∧ (ps.heap pce).id = id with
    | none =>
      have absent := find?_eq_none.mp searched pce listed
      simp [same, hash] at absent
    | some other =>
      have otherCached := ((wf.mem_bucket _ _).mp (mem_of_find?_eq_some searched)).1
      have matched := find?_some searched
      have otherSame : (ps.heap other).id = id := (of_decide_eq_true matched).2
      rw [wf.once other otherCached pce cached (otherSame.trans same.symm)]

/-- A page that is not part of an object is not the address of one. -/
theorem fresh {page : ℕ} (loose : page ∈ held ++ ps.freePages) : page ∉ ps.lru := by
  intro cached
  have pages := wf.pagesNodup
  rw [layout, ← append_assoc] at pages
  refine disjoint_of_nodup_append pages loose ?_
  exact mem_flatMap.mpr ⟨page, cached, wf.address page cached⟩

end

end WellFormed

/-! ### Moving entries on the LRU list -/

theorem updateLruList_heap : (updateLruList ps pce).heap = ps.heap := by
  unfold updateLruList updateModlruList
  split <;> rfl

theorem updateLruList_wellFormed (wf : WellFormed pc ps held) (cached : pce ∈ ps.lru) :
    WellFormed pc (updateLruList ps pce) held := by
  have moved : (pce :: ps.lru.erase pce).Perm ps.lru := (perm_cons_erase cached).symm
  have pages : (held ++ (ps.freePages ++ (pce :: ps.lru.erase pce).flatMap
      fun pce => (ps.heap pce).pages)).Perm (ps.layout held) :=
    ((moved.flatMap_right _).append_left _).append_left _
  have members (other : ℕ) : other ∈ pce :: ps.lru.erase pce ↔ other ∈ ps.lru := moved.mem_iff
  have base : WellFormed pc { ps with lru := pce :: ps.lru.erase pce } held := by
    refine ⟨moved.nodup_iff.mpr wf.lruNodup, wf.bucketNodup, ?_, ?_, ?_, wf.modlruNodup, ?_, wf.modsize,
      ?_, pages.nodup_iff.mpr wf.pagesNodup, pages.length_eq.trans wf.pagesCount⟩
    · intro h other
      rw [wf.mem_bucket, members]
    · intro other listed
      exact wf.hashed other ((members other).mp listed)
    · intro first firstListed second secondListed
      exact wf.once first ((members first).mp firstListed) second ((members second).mp secondListed)
    · intro other
      rw [wf.mem_modlru, members]
    · intro other listed
      exact wf.address other ((members other).mp listed)
  unfold updateLruList updateModlruList
  split
  · next modified =>
      have listed : pce ∈ ps.modlru := (wf.mem_modlru pce).mpr ⟨cached, modified⟩
      have moved : (pce :: ps.modlru.erase pce).Perm ps.modlru := (perm_cons_erase listed).symm
      refine { base with modlruNodup := ?_, mem_modlru := ?_, modsize := ?_ }
      · exact moved.nodup_iff.mpr wf.modlruNodup
      · intro other
        rw [moved.mem_iff]
        exact base.mem_modlru other
      · rw [wf.modsize]
        exact ((moved.map _).sum_eq).symm
  · exact base

theorem updateLruList_lru (cached : pce ∈ ps.lru) (other : ℕ) :
    other ∈ (updateLruList ps pce).lru ↔ other ∈ ps.lru := by
  have members : other ∈ pce :: ps.lru.erase pce ↔ other ∈ ps.lru :=
    (perm_cons_erase cached).symm.mem_iff
  unfold updateLruList updateModlruList
  split <;> exact members

/-- Two slabs with the same entries under the same keys are the same cache. -/
theorem view_congr {after : Slab} (onceBefore : ∀ pce ∈ ps.lru, ∀ other ∈ ps.lru,
      (ps.heap pce).id = (ps.heap other).id → pce = other)
    (members : ∀ pce, pce ∈ after.lru ↔ pce ∈ ps.lru) (heap : after.heap = ps.heap)
    (written : after.written = ps.written) : after.view = ps.view := by
  have onceAfter : ∀ pce ∈ after.lru, ∀ other ∈ after.lru,
      (after.heap pce).id = (after.heap other).id → pce = other := by
    intro pce listed other otherListed
    rw [heap]
    exact onceBefore pce ((members pce).mp listed) other ((members other).mp otherListed)
  have found (id : ObjectKey) : after.find id = ps.find id := by
    apply Option.ext
    intro pce
    rw [find_eq_some_iff onceAfter, find_eq_some_iff onceBefore, members, heap]
  simp [view, found, heap, written]

theorem updateLruList_view (wf : WellFormed pc ps held) (cached : pce ∈ ps.lru) :
    (updateLruList ps pce).view = ps.view := by
  refine view_congr wf.once (updateLruList_lru cached) updateLruList_heap ?_
  unfold updateLruList updateModlruList
  split <;> rfl

/-! ### Removing an entry -/

/-- What `SDFNewCacheRemove` makes of a slab that has the entry. -/
structure Removed (pc : CacheConfig) (ps : Slab) (held : List ℕ) (pce : ℕ) (wrbkFlag : Bool)
    (after : Slab) : Prop where
  wellFormed : WellFormed pc after held
  lru : after.lru = ps.lru.erase pce
  heap : after.heap = ps.heap
  tmpEntry : after.tmpEntry = ps.tmpEntry
  queue : after.requestQueue = ps.requestQueue
  free : after.freePages.length = ps.freePages.length + (ps.heap pce).pages.length
  written : after.written =
    if wrbkFlag = true ∧ (ps.heap pce).state = .modified then
      ((ps.heap pce).id, (ps.heap pce).data) :: ps.written else ps.written

/-- The fields of the slab that a removal leaves. -/
theorem remove_eq (listed : pce ∈ ps.bucket (ps.heap pce).bucket) (wrbkFlag : Bool) :
    sdfNewCacheRemove ps pce wrbkFlag = some ({ ps with
      bucket := update ps.bucket (ps.heap pce).bucket
        ((ps.bucket (ps.heap pce).bucket).erase pce)
      modsizeWKeys := if (ps.heap pce).state = .modified then
        ps.modsizeWKeys - (ps.heap pce).weight else ps.modsizeWKeys
      lru := ps.lru.erase pce
      modlru := if (ps.heap pce).state = .modified then ps.modlru.erase pce else ps.modlru
      written := if wrbkFlag = true ∧ (ps.heap pce).state = .modified then
        ((ps.heap pce).id, (ps.heap pce).data) :: ps.written else ps.written
      freePages := (ps.heap pce).pages.reverse ++ ps.freePages }, (ps.heap pce).pages.length) := by
  unfold sdfNewCacheRemove lruRemove modlruRemove wrbkFn fastccObjectFree
  by_cases modified : (ps.heap pce).state = .modified <;> cases wrbkFlag <;> simp [listed, modified]

theorem remove_spec (wf : WellFormed pc ps held) (cached : pce ∈ ps.lru) (wrbkFlag : Bool) :
    ∃ after, sdfNewCacheRemove ps pce wrbkFlag = some (after, (ps.heap pce).pages.length) ∧
      Removed pc ps held pce wrbkFlag after := by
  have listed : pce ∈ ps.bucket (ps.heap pce).bucket := (wf.mem_bucket _ _).mpr ⟨cached, rfl⟩
  refine ⟨_, remove_eq listed wrbkFlag, ⟨?_, rfl, rfl, rfl, rfl, ?_, rfl⟩⟩
  swap
  · rw [length_append, length_reverse, add_comm]
  have gone (other : ℕ) : other ∈ ps.lru.erase pce ↔ other ≠ pce ∧ other ∈ ps.lru :=
    wf.lruNodup.mem_erase_iff
  have pages : (held ++ (((ps.heap pce).pages.reverse ++ ps.freePages) ++
      (ps.lru.erase pce).flatMap fun pce => (ps.heap pce).pages)).Perm (ps.layout held) := by
    refine List.Perm.append_left _ ?_
    have rest : (ps.lru.flatMap fun pce => (ps.heap pce).pages).Perm
        ((ps.heap pce).pages ++ (ps.lru.erase pce).flatMap fun pce => (ps.heap pce).pages) :=
      (perm_cons_erase cached).flatMap_right _
    calc (((ps.heap pce).pages.reverse ++ ps.freePages) ++
          (ps.lru.erase pce).flatMap fun pce => (ps.heap pce).pages).Perm
          ((ps.freePages ++ (ps.heap pce).pages) ++
            (ps.lru.erase pce).flatMap fun pce => (ps.heap pce).pages) :=
          (((reverse_perm _).append_right _).trans perm_append_comm).append_right _
      _ = ps.freePages ++ ((ps.heap pce).pages ++
            (ps.lru.erase pce).flatMap fun pce => (ps.heap pce).pages) := append_assoc ..
      List.Perm _ (ps.freePages ++ ps.lru.flatMap fun pce => (ps.heap pce).pages) :=
          rest.symm.append_left _
  refine ⟨wf.lruNodup.erase pce, ?_, ?_, ?_, ?_, ?_, ?_, ?_, ?_, pages.nodup_iff.mpr wf.pagesNodup,
    pages.length_eq.trans wf.pagesCount⟩
  · intro h
    by_cases here : h = (ps.heap pce).bucket
    · subst here
      simpa using (wf.bucketNodup _).erase pce
    · simpa [here] using wf.bucketNodup h
  · intro h other
    rw [gone]
    by_cases here : h = (ps.heap pce).bucket
    · subst here
      simp [(wf.bucketNodup _).mem_erase_iff, wf.mem_bucket, and_assoc]
    · simp only [update_of_ne here, wf.mem_bucket]
      refine ⟨fun found => ⟨⟨?_, found.1⟩, found.2⟩, fun found => ⟨found.1.2, found.2⟩⟩
      rintro rfl
      exact here found.2.symm
  · exact fun other still => wf.hashed other ((gone other).mp still).2
  · exact fun first firstStill second secondStill =>
      wf.once first ((gone first).mp firstStill).2 second ((gone second).mp secondStill).2
  · dsimp only
    split
    · exact wf.modlruNodup.erase pce
    · exact wf.modlruNodup
  · intro other
    rw [gone]
    split
    · rw [wf.modlruNodup.mem_erase_iff, wf.mem_modlru, and_assoc]
    · next clean =>
        rw [wf.mem_modlru]
        refine ⟨fun found => ⟨⟨?_, found.1⟩, found.2⟩, fun found => ⟨found.1.2, found.2⟩⟩
        rintro rfl
        exact clean found.2
  · dsimp only
    split
    · next modified =>
        have listed : pce ∈ ps.modlru := (wf.mem_modlru pce).mpr ⟨cached, modified⟩
        have total := ((perm_cons_erase listed).map fun pce => (ps.heap pce).weight).sum_eq
        rw [map_cons, sum_cons] at total
        rw [wf.modsize, total]
        omega
    · exact wf.modsize
  · exact fun other still => wf.address other ((gone other).mp still).2

/-- As a cache, the slab has evicted the object, or dropped it without writing it back. -/
theorem Removed.view {wrbkFlag : Bool} {after : Slab} (wf : WellFormed pc ps held)
    (cached : pce ∈ ps.lru) (removed : Removed pc ps held pce wrbkFlag after) :
    after.view = if wrbkFlag then ps.view.evict (ps.heap pce).id
      else ps.view.drop (ps.heap pce).id := by
  have lines (id : ObjectKey) : after.view.line id =
      if id = (ps.heap pce).id then none else ps.view.line id := by
    split
    · next here =>
        have none : after.find id = none := by
          rw [find_eq_none_iff, removed.lru, removed.heap]
          intro other still same
          obtain ⟨ne, otherCached⟩ := wf.lruNodup.mem_erase_iff.mp still
          exact ne (wf.once other otherCached pce cached (same.trans here))
        simp [Slab.view, none]
    · next elsewhere =>
        have found : after.find id = ps.find id := by
          apply Option.ext
          intro other
          rw [find_eq_some_iff removed.wellFormed.once, find_eq_some_iff wf.once, removed.lru, removed.heap,
            wf.lruNodup.mem_erase_iff]
          refine ⟨fun found => ⟨found.1.2, found.2⟩, fun found => ⟨⟨?_, found.1⟩, found.2⟩⟩
          rintro rfl
          exact elsewhere found.2.symm
        simp [Slab.view, found, removed.heap]
  have line := wf.line cached
  have dropped : after.view.line = update ps.view.line (ps.heap pce).id none := by
    funext id
    rw [lines, update_apply]
  cases wrbkFlag with
  | false =>
    have written : after.view.written = ps.view.written := by
      simp [Slab.view, removed.written]
    simp only [Bool.false_eq_true, if_false, Cache.drop]
    rw [← dropped, ← written]
  | true =>
    by_cases modified : (ps.heap pce).state = .modified
    · have dirty : ps.view.line (ps.heap pce).id = some ⟨(ps.heap pce).data, true⟩ := by
        rw [line]
        simp [CacheEntry.line, modified]
      have written : after.view.written = ((ps.heap pce).id, (ps.heap pce).data) :: ps.view.written := by
        simp [Slab.view, removed.written, modified]
      simp only [if_true, Cache.evict, Cache.flush_of_dirty dirty, Cache.drop]
      rw [update_idem, ← dropped, ← written]
    · have clean : ps.view.line (ps.heap pce).id = some ⟨(ps.heap pce).data, false⟩ := by
        rw [line]
        simp [CacheEntry.line, modified]
      have written : after.view.written = ps.view.written := by
        simp [Slab.view, removed.written, modified]
      simp only [if_true, Cache.evict, Cache.flush_of_clean clean, Cache.drop]
      rw [← dropped, ← written]

end Zetascale.FastCc
