import Zetascale.Flash.HashStructure

/-!
# Runs of the flash hash table

Every sequence of calls keeps the structure of the table, as long as the locks
that `hash_table_init` made cover the hash indexes. Its first loop halves the
number of locks, rounding down, while it doubles their size: with an odd number
of locks the last hash indexes have no lock, and with it no free list.
-/

namespace Zetascale.Flash

open Function HashHandle List Slots Machine

/-- The table and what it should hold, bucket by bucket. -/
structure Table where
  handle : HashHandle
  contents : ℕ → Multiset HashEntry

open Table

/-- A call. What the map of free lists answers goes with the insertion. -/
inductive Call
  | insert (isset : ℕ → Bool) (syndrome : ℕ) (e : HashEntry)
  | recover (obj : Recovery.FlashObject) (blkOffset : ℕ)
  | delete (he : EntryPtr) (hashIdx : ℕ)

namespace Table

/-- The entry is added to a bucket. -/
def added (contents : ℕ → Multiset HashEntry) (b : ℕ) (e : HashEntry) : ℕ → Multiset HashEntry :=
  update contents b (e ::ₘ contents b)

/-- The entry is taken from a bucket. -/
def taken (contents : ℕ → Multiset HashEntry) (b : ℕ) (e : HashEntry) : ℕ → Multiset HashEntry :=
  update contents b ((contents b).erase e)

/-- One call; what the table should hold changes by the entry inserted or deleted. -/
def step (t : Table) : Call → Option Table
  | .insert isset syndrome e =>
    match insertEntry isset t.handle syndrome e with
    | none => none
    | some (h, true) =>
      some ⟨h, added t.contents (syndrome % t.handle.hashSize / bucketSize) e⟩
    | some (h, false) => some ⟨h, t.contents⟩
  | .recover obj blkOffset =>
    (hashEntryRecoveryInsert t.handle obj blkOffset).map fun h =>
      ⟨h, added t.contents (recoveryBucket t.handle obj) (recoveredEntry {} obj blkOffset)⟩
  | .delete he hashIdx =>
    (hashEntryDelete t.handle he hashIdx).map fun h =>
      ⟨h, taken t.contents (hashIdx / bucketSize) (t.handle.entry he)⟩

/-- No entry of the table is at the block address. -/
def Free (t : Table) (blk : ℕ) : Prop :=
  blk < t.handle.addrSize ∧ ∀ b, ∀ e ∈ t.contents b, e.blkaddress ≠ blk

/-- What the callers see to: an entry goes to a block address of its own; recovery does not overflow
the table, which aborts; an entry is deleted from the bucket it is in. -/
def Legal (t : Table) : Call → Prop
  | .insert _ _ e => e.used = true ∧ t.Free e.blkaddress
  | .recover obj blkOffset =>
    t.Free blkOffset ∧ obj.obucket < 2 ^ 32 ∧ recoveryBucket t.handle obj < t.handle.buckets ∧
      (t.handle.headHole (recoveryBucket t.handle obj) = none →
        t.handle.hashTableIdx < t.handle.maxHashTableIdx)
  | .delete he hashIdx =>
    hashIdx < 2 ^ 32 ∧ hashIdx / bucketSize < t.handle.buckets ∧
      (t.handle.entry he).used = true ∧
      ∃ chain, Chained t.handle.next (t.handle.hashBuckets (hashIdx / bucketSize)) chain ∧
        he.bucketEntry ∈ chain

/-- The empty table. -/
def init (params : InitParams) : Table := ⟨hashTableInit params, fun _ => 0⟩

/-- The structure of the table. Chains and free lists are the lists of `cells`, which the links run
through once and end. -/
structure Structured (t : Table) (cells : Place → List ℕ) : Prop where
  linked : ∀ p, Chained t.handle.next (t.handle.first p) (cells p) ∧ (cells p).Nodup
  one_place : ∀ c < t.handle.hashTableIdx, ∃! p, t.handle.InRange p ∧ c ∈ cells p
  head_used : ∀ b c rest, cells (.bucket b) = c :: rest → ∃ i, (t.handle.entries c i).used = true
  others_full : ∀ b c rest, cells (.bucket b) = c :: rest →
    ∀ d ∈ rest, ∀ i, (t.handle.entries d i).used = true
  free_unused : ∀ l, ∀ c ∈ cells (.lock l), ∀ i, (t.handle.entries c i).used = false
  alloc_count :
    t.handle.allocCount = (held t.handle.entries (Finset.range t.handle.hashTableIdx)).card
  contents : ∀ b, held t.handle.entries (cells (.bucket b)).toFinset = t.contents b
  addr_table : ∀ table, t.handle.addrTable = some table →
    ∀ b, ∀ e ∈ t.contents b, table e.blkaddress / bucketSize = b

end Table

variable {h h' : HashHandle} {contents : ℕ → Multiset HashEntry} {cells : Place → List ℕ}
  {b hashIdx : ℕ} {t : Table}

/-- The locks cover the hash indexes. -/
structure Covers (h : HashHandle) : Prop where
  size : h.hashSize = h.lockBktsize * h.lockBuckets
  aligned : bucketSize ∣ h.lockBktsize
  scan : 0 < h.hashSize → h.lockBktsize ≤ h.lockBuckets
  small : h.hashSize ≤ 2 ^ 32
  pos : 0 < h.addrSize → 0 < h.hashSize

/-- What `hash_table_init` has fixed is the same in both. -/
structure SameSizes (h h' : HashHandle) : Prop where
  size : h'.hashSize = h.hashSize
  bktsize : h'.lockBktsize = h.lockBktsize
  locks : h'.lockBuckets = h.lockBuckets
  addrs : h'.addrSize = h.addrSize
  max : h'.maxHashTableIdx = h.maxHashTableIdx

theorem SameSizes.refl (h : HashHandle) : SameSizes h h := ⟨rfl, rfl, rfl, rfl, rfl⟩

theorem Covers.congr (covers : Covers h) (same : SameSizes h h') : Covers h' := by
  constructor
  · rw [same.size, same.bktsize, same.locks, covers.size]
  · rw [same.bktsize]; exact covers.aligned
  · rw [same.size, same.bktsize, same.locks]; exact covers.scan
  · rw [same.size]; exact covers.small
  · rw [same.size, same.addrs]; exact covers.pos

/-- The invariant of all runs. -/
structure Inv (t : Table) (cells : Place → List ℕ) : Prop where
  linked : Linked t.handle cells
  filled : Filled t.handle.entries cells
  contents : ∀ b, held t.handle.entries (cells (.bucket b)).toFinset = t.contents b
  count : t.handle.allocCount = (held t.handle.entries (Finset.range t.handle.hashTableIdx)).card
  addressed : Addressed t.handle.addrTable t.handle.addrSize t.contents

/-- The invariant has the structure. -/
theorem Inv.structured (inv : Inv t cells) : t.Structured cells where
  linked p := ⟨inv.linked.lists.chained p, inv.linked.lists.nodup p⟩
  one_place c below := by
    obtain ⟨p, mem⟩ := (inv.linked.members c).mpr below
    exact ⟨p, ⟨inv.linked.inRange mem, mem⟩, fun q there => inv.linked.lists.only there.2 mem⟩
  head_used b c rest chain := inv.filled.head chain
  others_full b c rest chain := inv.filled.full chain
  free_unused l c mem := inv.filled.unused fun b there => by
    cases inv.linked.lists.only mem there
  alloc_count := inv.count
  contents := inv.contents
  addr_table table found b e mem := inv.addressed.named found mem

namespace Covers

variable (covers : Covers h)

include covers

theorem bucketSize_dvd : bucketSize ∣ h.hashSize := by
  rw [covers.size]
  exact Dvd.dvd.mul_right covers.aligned _

/-- Each hash index has a bucket … -/
theorem bucket_lt (below : hashIdx < h.hashSize) : hashIdx / bucketSize < h.buckets := by
  obtain ⟨k, size⟩ := covers.bucketSize_dvd
  rw [buckets, size, Nat.mul_div_cancel_left _ (by decide)]
  exact Nat.div_lt_of_lt_mul (by rwa [← size])

/-- … and the hash indexes of a bucket are below the size of the table … -/
theorem index_lt (below : hashIdx / bucketSize < h.buckets) : hashIdx < h.hashSize := by
  obtain ⟨k, size⟩ := covers.bucketSize_dvd
  rw [buckets, size, Nat.mul_div_cancel_left _ (by decide),
    Nat.div_lt_iff_lt_mul (by decide)] at below
  rwa [size, mul_comm]

/-- … and have a lock. -/
theorem lock_lt (below : hashIdx < h.hashSize) : hashIdx / h.lockBktsize < h.lockBuckets :=
  Nat.div_lt_of_lt_mul (by rwa [← covers.size])

end Covers

variable {he : EntryPtr} {cells' : Place → List ℕ} {e : HashEntry}

section

/-- How a place for an entry is found in a bucket: a hole in its head, or a new head taken from a
free list or from the bucket entries never used. -/
inductive Opened (h : HashHandle) (b : ℕ) : HashHandle → EntryPtr → Prop
  | hole {he : EntryPtr} : h.headHole b = some he → Opened h b h he
  | free {l : ℕ} : h.headHole b = none → h.freeList l ≠ 0 →
      Opened h b (h.takeFree b l) ((h.takeFree b l).headEntry b)
  | fresh : h.headHole b = none → h.hashTableIdx < h.maxHashTableIdx →
      Opened h b (h.takeFresh b) ((h.takeFresh b).headEntry b)

variable {l : ℕ}

/-- The first unused entry, if there is one. -/
theorem firstUnused_spec {be : BucketEntry} :
    (∀ i, firstUnused be = some i → (be.hashEntry i).used = false) ∧
      (firstUnused be = none → ∀ i, (be.hashEntry i).used = true) := by
  constructor
  · intro i found
    simpa using find?_some found
  · intro none i
    have := find?_eq_none.mp none i (mem_finRange i)
    simpa using this

theorem headHole_some (found : h.headHole b = some he) :
    h.hashBuckets b ≠ 0 ∧ he.bucketEntry = h.hashBuckets b - 1 ∧ (h.entry he).used = false := by
  unfold headHole at found
  split_ifs at found with empty
  obtain ⟨i, unused, rfl⟩ := Option.map_eq_some_iff.mp found
  exact ⟨empty, rfl, firstUnused_spec.1 i unused⟩

/-- Without a hole in its head a chain is full. -/
theorem Filled.chain_full (filled : Filled h.entries cells) (linked : Linked h cells)
    (none : h.headHole b = none) : ∀ d ∈ cells (.bucket b), ∀ i, (h.entries d i).used = true := by
  intro d mem i
  by_cases empty : h.hashBuckets b = 0
  · rw [linked.empty empty] at mem
    cases mem
  · obtain ⟨rest, chain⟩ := linked.head empty
    rw [headHole, if_neg empty, Option.map_eq_none_iff] at none
    rw [chain, mem_cons] at mem
    rcases mem with rfl | inRest
    · exact firstUnused_spec.2 none i
    · exact filled.full chain d inRest i

theorem entries_setEntry (h : HashHandle) (he : EntryPtr) (e : HashEntry) :
    (h.setEntry he e).entries = Slots.set h.entries he.bucketEntry he.slot e := by
  funext c
  simp only [entries, setEntry, Slots.set, update_apply]
  split_ifs <;> rfl

theorem next_setEntry (h : HashHandle) (he : EntryPtr) (e : HashEntry) :
    (h.setEntry he e).next = h.next :=
  (comp_update BucketEntry.next ..).trans (update_eq_self ..)

theorem entries_takeFresh (h : HashHandle) (b : ℕ) : (h.takeFresh b).entries = h.entries :=
  (comp_update BucketEntry.hashEntry ..).trans (update_eq_self ..)

section

variable (inv : Inv ⟨h, contents⟩ cells) (used : e.used = true)
  (free : Table.Free ⟨h, contents⟩ e.blkaddress) (small : hashIdx < 2 ^ 32)
  (ofBucket : h.addrTable.isSome → hashIdx / bucketSize = b)

include inv used free small ofBucket

section

variable (linked : Linked h' cells') (entries : h'.entries = h.entries)
  (count : h'.allocCount = (held h.entries (Finset.range h'.hashTableIdx)).card)
  (table : h'.addrTable = h.addrTable) (sizes : SameSizes h h')

include linked entries count table sizes

/-- The place filled, once the links around it and the other entries are as they should be. -/
theorem Inv.filled_in (filled : Filled (set h.entries he.bucketEntry he.slot e) cells')
    (mem : he.bucketEntry ∈ cells' (.bucket b)) (unused : (h.entry he).used = false)
    (same : ∀ b', held h.entries (cells' (.bucket b')).toFinset = contents b') :
    ∃ final, fillEntry h'.counted he e hashIdx = some final ∧
      Inv ⟨final, added contents b e⟩ cells' ∧ SameSizes h final ∧
      final.hashTableIdx = h'.hashTableIdx := by
  have fits : ¬(h'.addrTable.isSome = true ∧ h'.addrSize ≤ e.blkaddress) := fun out =>
    not_lt.mpr out.2 (by rw [sizes.addrs]; exact free.1)
  refine ⟨_, if_neg fits, ?_, { sizes with }, rfl⟩
  have finalEntries : ((h'.counted.setEntry he e).setAddr e.blkaddress hashIdx).entries =
      set h.entries he.bucketEntry he.slot e := by
    rw [← entries]
    exact entries_setEntry h'.counted he e
  refine ⟨linked.congr (by funext p; cases p <;> rfl) (next_setEntry h'.counted he e) rfl rfl rfl rfl,
    ?_, fun b' => ?_, ?_, ?_⟩
  · simpa only [finalEntries] using filled
  · simp only [finalEntries, added]
    by_cases here : b' = b
    · subst here
      rw [update_self, ← same, held_fill (mem_toFinset.mpr mem) unused used]
    · have out : he.bucketEntry ∉ (cells' (.bucket b')).toFinset := fun there =>
        here (chain_unique linked.lists mem (mem_toFinset.mp there))
      rw [update_of_ne here, ← same, held_set_of_notMem out]
  · have more : held (set h.entries he.bucketEntry he.slot e) (Finset.range h'.hashTableIdx) =
        e ::ₘ held h.entries (Finset.range h'.hashTableIdx) :=
      held_fill (Finset.mem_range.mpr (mem_chain_lt linked mem)) unused used
    simp only [finalEntries]
    change h'.allocCount + 1 = (held _ (Finset.range h'.hashTableIdx)).card
    rw [more, Multiset.card_cons, count]
  · have written := inv.addressed.insert free.1 free.2 small ofBucket
    rw [← table, ← sizes.addrs] at written
    exact written

/-- An entry goes to a new head of its chain. -/
theorem Inv.new_head (none : h.headHole b = none) {c : ℕ}
    (out : ∀ b, c ∉ cells (.bucket b)) (start : h'.hashBuckets b = c + 1)
    (here : cells' (.bucket b) = c :: cells (.bucket b))
    (elsewhere : ∀ {b'}, b' ≠ b → cells' (.bucket b') = cells (.bucket b')) :
    ∃ final, fillEntry h'.counted (h'.headEntry b) e hashIdx = some final ∧
      Inv ⟨final, added contents b e⟩ cells' ∧ SameSizes h final ∧
      final.hashTableIdx = h'.hashTableIdx := by
  have place : h'.headEntry b = ⟨c, 0⟩ := by rw [headEntry, start, Nat.add_sub_cancel]
  have unused : ∀ i, (h.entries c i).used = false := inv.filled.unused out
  rw [place]
  refine inv.filled_in used free small ofBucket linked entries count table sizes
    (inv.filled.newHead out (inv.filled.chain_full inv.linked none) used here elsewhere)
    (by rw [here]; exact mem_cons_self) (unused 0) fun b' => ?_
  by_cases sameB : b' = b
  · subst sameB
    rw [here, toFinset_cons, held_insert unused]
    exact inv.contents b'
  · rw [elsewhere sameB]
    exact inv.contents b'

end

/-- Wherever a place for the entry is found, filling it keeps the invariant. -/
theorem Inv.place (opened : Opened h b h' he) (room : b < h.buckets) :
    ∃ final cells', fillEntry h'.counted he e hashIdx = some final ∧
      Inv ⟨final, added contents b e⟩ cells' ∧ SameSizes h final ∧
      final.hashTableIdx ≤ h.hashTableIdx + 1 := by
  cases opened with
  | hole found =>
    obtain ⟨some, bucketEntry, unused⟩ := headHole_some found
    obtain ⟨rest, chain⟩ := inv.linked.head some
    have mem : he.bucketEntry ∈ cells (.bucket b) := by
      rw [chain, bucketEntry]
      exact mem_cons_self
    obtain ⟨final, filled, inv', sizes, index⟩ := inv.filled_in used free small
      ofBucket inv.linked rfl inv.count rfl (.refl h) (inv.filled.fill mem used) mem unused
      inv.contents
    exact ⟨final, cells, filled, inv', sizes, index.le.trans (Nat.le_succ _)⟩
  | @free l none some =>
    obtain ⟨rest, list, linked⟩ := inv.linked.takeFree room some
    have inList : h.freeList l - 1 ∈ cells (.lock l) := list ▸ mem_cons_self
    have out : ∀ b', h.freeList l - 1 ∉ cells (.bucket b') := fun b' there => by
      cases inv.linked.lists.only inList there
    obtain ⟨final, filled, inv', sizes, index⟩ := inv.new_head used free small ofBucket
      linked ((comp_update BucketEntry.hashEntry ..).trans (update_eq_self ..)) inv.count rfl ⟨rfl, rfl, rfl, rfl, rfl⟩ none out
      (by simp [takeFree]) (by simp [movedCells]) fun apart => by simp [movedCells, apart]
    exact ⟨final, _, filled, inv', sizes, index.le.trans (Nat.le_succ _)⟩
  | fresh none left =>
    have out : ∀ b', h.hashTableIdx ∉ cells (.bucket b') :=
      fun b' mem => lt_irrefl _ (mem_chain_lt inv.linked mem)
    have count : (h.takeFresh b).allocCount =
        (held h.entries (Finset.range (h.takeFresh b).hashTableIdx)).card := by
      have counted := inv.count
      rw [show (h.takeFresh b).hashTableIdx = h.hashTableIdx + 1 from rfl, Finset.range_add_one,
        held_insert (inv.filled.unused out)]
      exact counted
    obtain ⟨final, filled, inv', sizes, index⟩ := inv.new_head used free small ofBucket
      (inv.linked.takeFresh room left) (entries_takeFresh h b) count rfl ⟨rfl, rfl, rfl, rfl, rfl⟩
      none out (by simp [takeFresh]) (update_self ..) fun apart => by simp [apart]
    exact ⟨final, _, filled, inv', sizes, index.le⟩

end

theorem Table.taken_le (contents : ℕ → Multiset HashEntry) (b : ℕ) (e : HashEntry) :
    taken contents b e ≤ contents := update_le_self_iff.mpr (Multiset.erase_le e _)

/-- An entry takes the place of another. -/
theorem Inv.replace (inv : Inv ⟨h, contents⟩ cells) (mem : he.bucketEntry ∈ cells (.bucket b))
    (before : (h.entry he).used = true) (used : e.used = true)
    (free : Table.Free ⟨h, taken contents b (h.entry he)⟩ e.blkaddress)
    (small : hashIdx < 2 ^ 32) (ofBucket : h.addrTable.isSome → hashIdx / bucketSize = b) :
    ∃ h', fillEntry h he e hashIdx = some h' ∧
      Inv ⟨h', added (Table.taken contents b (h.entry he)) b e⟩ cells ∧ SameSizes h h' ∧
      h'.hashTableIdx = h.hashTableIdx := by
  have fits : ¬(h.addrTable.isSome = true ∧ h.addrSize ≤ e.blkaddress) := fun out =>
    not_lt.mpr out.2 free.1
  have finalEntries : ((h.setEntry he e).setAddr e.blkaddress hashIdx).entries =
      set h.entries he.bucketEntry he.slot e := entries_setEntry h he e
  have replaced : ∀ {s : Finset ℕ}, he.bucketEntry ∈ s →
      held (set h.entries he.bucketEntry he.slot e) s =
        e ::ₘ (held h.entries s).erase (h.entry he) := by
    intro s inS
    have both : h.entry he ::ₘ held (set h.entries he.bucketEntry he.slot e) s =
        e ::ₘ held h.entries s := held_replace inS before used
    have there : h.entry he ∈ held h.entries s := mem_held.mpr ⟨_, inS, _, before, rfl⟩
    rw [← Multiset.cons_erase there, Multiset.cons_swap, Multiset.cons_inj_right] at both
    exact both
  have holds : ∀ b, held h.entries (cells (.bucket b)).toFinset = contents b := inv.contents
  refine ⟨_, if_neg fits, ⟨inv.linked.congr (by funext p; cases p <;> rfl) (next_setEntry h he e) rfl
    rfl rfl rfl, ?_, fun b' => ?_, ?_, ?_⟩, ⟨rfl, rfl, rfl, rfl, rfl⟩, rfl⟩
  · simpa only [finalEntries] using inv.filled.fill mem used
  · simp only [finalEntries, added, taken]
    by_cases here : b' = b
    · subst here
      rw [update_self, update_self, replaced (mem_toFinset.mpr mem), holds]
    · have out : he.bucketEntry ∉ (cells (.bucket b')).toFinset := fun there =>
        here (chain_unique inv.linked.lists mem (mem_toFinset.mp there))
      rw [update_of_ne here, update_of_ne here, held_set_of_notMem out, holds]
  · have below : he.bucketEntry ∈ Finset.range h.hashTableIdx :=
      Finset.mem_range.mpr (mem_chain_lt inv.linked mem)
    have there : h.entry he ∈ held h.entries (Finset.range h.hashTableIdx) :=
      mem_held.mpr ⟨_, below, _, before, rfl⟩
    have count : h.allocCount = (held h.entries (Finset.range h.hashTableIdx)).card := inv.count
    simp only [finalEntries]
    change h.allocCount = (held _ (Finset.range h.hashTableIdx)).card
    rw [replaced below, Multiset.card_cons, Multiset.card_erase_add_one there, count]
  · exact (inv.addressed.mono (taken_le contents b _)).insert free.1 free.2 small ofBucket

/-- A look through lists that there are finds an entry of one of them or nothing. -/
theorem popLists_outcome (isset : ℕ → Bool) {locks : List ℕ}
    (inRange : ∀ l ∈ locks, l < h.lockBuckets) : h.popLists isset b locks = some none ∨
      ∃ l, h.freeList l ≠ 0 ∧ h.popLists isset b locks = some (some (h.takeFree b l)) := by
  have inMap : ∀ {l}, l < h.lockBuckets → ¬h.mapBits ≤ l := by
    unfold mapBits
    omega
  induction locks with
  | nil => exact .inl rfl
  | cons l rest ih =>
    have below := inRange l mem_cons_self
    have onward := ih fun l' mem => inRange l' (mem_cons_of_mem _ mem)
    rw [popLists, if_neg (inMap below)]
    by_cases set : isset l = true
    · rw [if_pos set, if_neg (not_le.mpr below)]
      by_cases some : h.freeList l ≠ 0
      · rw [if_pos some]
        exact .inr ⟨l, some, rfl⟩
      · rw [if_neg some]
        exact onward
    · rw [if_neg set]
      exact onward

/-- An insertion finds a place, or nothing is left and nothing changes. -/
theorem hashEntryInsertByKey_outcome (isset : ℕ → Bool) (covers : Covers h) (pos : 0 < h.hashSize)
    (syndrome : ℕ) : (hashEntryInsertByKey isset h syndrome = some (h, none) ∧
        ¬h.hashTableIdx < h.maxHashTableIdx) ∨
      ∃ h' he, Opened h (syndrome % h.hashSize / bucketSize) h' he ∧
        hashEntryInsertByKey isset h syndrome = some (h'.counted, some he) := by
  have below : syndrome % h.hashSize < h.hashSize := Nat.mod_lt _ pos
  have room := covers.bucket_lt below
  have own : ∀ l ∈ [syndrome % h.hashSize / h.lockBktsize], l < h.lockBuckets := by
    intro l mem
    rw [mem_singleton] at mem
    exact mem ▸ covers.lock_lt below
  have others : ∀ l ∈ range h.lockBktsize, l < h.lockBuckets := fun l mem =>
    lt_of_lt_of_le (mem_range.mp mem) (covers.scan pos)
  simp only [hashEntryInsertByKey, if_neg (not_le.mpr room)]
  cases hole : h.headHole (syndrome % h.hashSize / bucketSize) with
  | some he => exact .inr ⟨h, he, .hole hole, rfl⟩
  | none =>
    rcases popLists_outcome isset (b := syndrome % h.hashSize / bucketSize) own with nothing | ⟨l, some, found⟩
    · by_cases left : h.hashTableIdx < h.maxHashTableIdx
      · exact .inr ⟨_, _, .fresh hole left, by simp [nothing, if_pos left]⟩
      · rcases popLists_outcome isset (b := syndrome % h.hashSize / bucketSize) others with
          nothing' | ⟨l, some, found⟩
        · exact .inl ⟨by simp [nothing, if_neg left, nothing'], left⟩
        · exact .inr ⟨_, _, .free hole some, by simp [nothing, if_neg left, found]⟩
    · exact .inr ⟨_, _, .free hole some, by simp [found]⟩

/-- An insertion keeps the invariant; it fails only if the bucket entries are used up, and changes
nothing then. -/
theorem Inv.insertEntry (inv : Inv ⟨h, contents⟩ cells) (covers : Covers h) (isset : ℕ → Bool)
    (syndrome : ℕ) (used : e.used = true) (free : Table.Free ⟨h, contents⟩ e.blkaddress) :
    (insertEntry isset h syndrome e = some (h, false) ∧ ¬h.hashTableIdx < h.maxHashTableIdx) ∨
      ∃ h' cells', insertEntry isset h syndrome e = some (h', true) ∧
        Inv ⟨h', added contents (syndrome % h.hashSize / bucketSize) e⟩ cells' ∧
        SameSizes h h' ∧ h'.hashTableIdx ≤ h.hashTableIdx + 1 := by
  have pos : 0 < h.hashSize := covers.pos (Nat.zero_lt_of_lt free.1)
  have below : syndrome % h.hashSize < h.hashSize := Nat.mod_lt _ pos
  rcases hashEntryInsertByKey_outcome isset covers pos syndrome with
    ⟨nothing, full⟩ | ⟨h', he, opened, found⟩
  · exact .inl ⟨by simp [Flash.insertEntry, nothing], full⟩
  · obtain ⟨final, cells', filled, inv', sizes, index⟩ := inv.place used free
      (lt_of_lt_of_le below covers.small) (fun _ => rfl) opened (covers.bucket_lt below)
    exact .inr ⟨final, cells', by simp [Flash.insertEntry, found, filled], inv',
      sizes, index⟩

/-- An insertion in recovery returns and keeps the invariant. -/
theorem Inv.recover (inv : Inv t cells) {obj : Recovery.FlashObject} {blkOffset : ℕ}
    (legal : t.Legal (.recover obj blkOffset)) :
    ∃ next cells', t.step (.recover obj blkOffset) = some next ∧ Inv next cells' ∧
      SameSizes t.handle next.handle := by
  obtain ⟨free, small, room, left⟩ := legal
  have ofBucket : t.handle.addrTable.isSome →
      obj.obucket / bucketSize = recoveryBucket t.handle obj := by
    intro some
    rw [recoveryBucket, if_neg (by simpa using Option.isSome_iff_ne_none.mp some)]
  have cleared : ∀ {c i}, (t.handle.entries c i).used = false → t.handle.entries c i = {} :=
    inv.filled.cleared
  simp only [step, hashEntryRecoveryInsert, if_neg (not_le.mpr room)]
  cases hole : t.handle.headHole (recoveryBucket t.handle obj) with
  | some he =>
    obtain ⟨final, cells', filled, inv', sizes, -⟩ := inv.place
      (e := recoveredEntry {} obj blkOffset) rfl free small ofBucket (.hole hole) room
    have empty : t.handle.entry he = {} := cleared (headHole_some hole).2.2
    exact ⟨_, cells', by simp [empty, filled], inv', sizes⟩
  | none =>
    obtain ⟨final, cells', filled, inv', sizes, -⟩ := inv.place
      (e := recoveredEntry {} obj blkOffset) rfl free small ofBucket (.fresh hole (left hole)) room
    have empty : (t.handle.takeFresh (recoveryBucket t.handle obj)).entry
        ((t.handle.takeFresh (recoveryBucket t.handle obj)).headEntry
          (recoveryBucket t.handle obj)) = {} := by
      have out : ∀ b', t.handle.hashTableIdx ∉ cells (.bucket b') :=
        fun b' mem => lt_irrefl _ (mem_chain_lt inv.linked mem)
      have kept := congrFun (congrFun (entries_takeFresh t.handle (recoveryBucket t.handle obj))
        t.handle.hashTableIdx) 0
      rw [cleared (inv.filled.unused out 0)] at kept
      simpa [entry, headEntry, takeFresh, entries] using kept
    exact ⟨_, cells', by simp [if_pos (left hole), empty, filled], inv',
      sizes⟩

end

section

variable {c : ℕ} {rest : List ℕ}

theorem onChain_of_mem {start : ℕ} {chain : List ℕ} (chained : Chained h.next start chain)
    (mem : c ∈ chain) {fuel : ℕ} (enough : chain.length ≤ fuel) :
    h.onChain c fuel start = true := by
  induction chain generalizing start fuel with
  | nil => cases mem
  | cons d rest ih =>
    obtain ⟨rfl, onward⟩ := chained
    cases fuel with
    | zero => cases enough
    | succ fuel =>
      rw [onChain, if_neg (Nat.succ_ne_zero d), Nat.add_sub_cancel]
      by_cases same : d = c
      · rw [if_pos same]
      · rw [if_neg same]
        exact ih onward ((mem_cons.mp mem).resolve_left (Ne.symm same))
          (Nat.le_of_succ_le_succ enough)

/-- A chain is not longer than there are bucket entries. -/
theorem Linked.length_le (linked : Linked h cells) (p : Place) :
    (cells p).length ≤ h.hashTableIdx := by
  have sub : (cells p).toFinset ⊆ Finset.range h.hashTableIdx := fun c mem =>
    Finset.mem_range.mpr (mem_chain_lt linked (mem_toFinset.mp mem))
  have card := Finset.card_le_card sub
  rwa [toFinset_card_of_nodup (linked.lists.nodup p), Finset.card_range] at card

theorem foldl_moveStep_of_used {head del : ℕ} (state : HashHandle × ℕ) {slots : List (Fin 4)}
    (used : ∀ i ∈ slots, (state.1.entry ⟨del, i⟩).used = true) :
    slots.foldl (moveStep head del hashIdx) state = state := by
  induction slots with
  | nil => rfl
  | cons i rest ih =>
    have keep : moveStep head del hashIdx state i = state := if_pos (used i mem_cons_self)
    rw [foldl_cons, keep]
    exact ih fun j mem => used j (mem_cons_of_mem _ mem)

/-- The loop moves one entry of the head into the hole. -/
theorem foldl_moveStep_hole (hashIdx : ℕ) {head del : ℕ} {i : Fin 4} (apart : head ≠ del)
    (hole : (h.entry ⟨del, i⟩).used = false) (others : ∀ j ≠ i, (h.entry ⟨del, j⟩).used = true)
    (some : ∃ j, (h.entry ⟨head, j⟩).used = true) : ∃ j, (h.entry ⟨head, j⟩).used = true ∧
      ((finRange 4).foldl (moveStep head del hashIdx) (h, 0)).1 =
        ((h.setEntry ⟨del, i⟩ (h.entry ⟨head, j⟩)).setEntry ⟨head, j⟩ {}).setAddr
          (h.entry ⟨head, j⟩).blkaddress hashIdx := by
  obtain ⟨before, after, split⟩ := append_of_mem (mem_finRange i)
  have distinct := nodup_finRange 4
  rw [split] at distinct
  have notBefore : ∀ j ∈ before, j ≠ i := fun j mem same =>
    (nodup_append.mp distinct).2.2 j mem i mem_cons_self same
  have notAfter : ∀ j ∈ after, j ≠ i := fun j mem same =>
    (nodup_cons.mp (nodup_append.mp distinct).2.1).1 (same ▸ mem)
  obtain ⟨j, found⟩ : ∃ j, (finRange 4).find?
      (fun j => decide (0 ≤ j.val) && (h.entry ⟨head, j⟩).used) = Option.some j := by
    obtain ⟨j, used⟩ := some
    refine Option.isSome_iff_exists.mp (find?_isSome.mpr ⟨j, mem_finRange j, ?_⟩)
    simp [used]
  have used : (h.entry ⟨head, j⟩).used = true := by
    have := find?_some found
    simpa using this
  refine ⟨j, used, ?_⟩
  have moved : moveStep head del hashIdx (h, 0) i =
      (((h.setEntry ⟨del, i⟩ (h.entry ⟨head, j⟩)).setEntry ⟨head, j⟩ {}).setAddr
        (h.entry ⟨head, j⟩).blkaddress hashIdx, j.val) := by
    simp only [moveStep, hole, Bool.false_eq_true, if_false, found]
  rw [split, foldl_append, foldl_cons,
    foldl_moveStep_of_used _ fun k mem => others k (notBefore k mem), moved,
    foldl_moveStep_of_used]
  intro k mem
  -- the other entries of `del` are as they were
  have kept : (set (set h.entries del i (h.entry ⟨head, j⟩)) head j {}) del k =
      h.entries del k := by
    rw [set_of_ne_cell (Ne.symm apart), set_of_ne_slot (notAfter k mem)]
  rw [← entries_setEntry h ⟨del, i⟩, ← entries_setEntry _ ⟨head, j⟩] at kept
  exact (congrArg HashEntry.used kept).trans (others k (notAfter k mem))

/-- What else a handle has is as it was. -/
structure SameFrame (h h' : HashHandle) : Prop where
  sizes : SameSizes h h'
  first : h'.first = h.first
  next : h'.next = h.next
  index : h'.hashTableIdx = h.hashTableIdx
  count : h'.allocCount = h.allocCount

/-- What the entries are once the deleted one is cleared and its hole filled. In `twice` the entry
moved stands both in its new place and still in the head, and the last write clears the latter. -/
structure Cleared (h cleared : HashHandle) (contents : ℕ → Multiset HashEntry)
    (cells : Place → List ℕ) (b c : ℕ) (he : EntryPtr) (twice : ℕ → Fin 4 → HashEntry) (j : Fin 4) :
    Prop where
  filled : Filled twice cells
  entries : cleared.entries = set twice c j {}
  here : ∀ {s : Finset ℕ}, c ∈ s → he.bucketEntry ∈ s →
    h.entry he ::ₘ held (set twice c j {}) s = held h.entries s
  elsewhere : ∀ {s : Finset ℕ}, c ∉ s → he.bucketEntry ∉ s →
    held (set twice c j {}) s = held h.entries s
  addressed : Addressed cleared.addrTable cleared.addrSize (Table.taken contents b (h.entry he))
  frame : SameFrame h cleared

section

variable (filled : Filled h.entries cells)
  (holds : ∀ b, held h.entries (cells (.bucket b)).toFinset = contents b)
  (addressed : Addressed h.addrTable h.addrSize contents) (used : (h.entry he).used = true)

include filled holds addressed used

/-- The hole is in the head. -/
theorem clear_head (mem : he.bucketEntry ∈ cells (.bucket b)) :
    Cleared h ((h.setAddr (h.entry he).blkaddress 0).setEntry he {}) contents cells b
      he.bucketEntry he h.entries he.slot where
  filled := filled
  entries := entries_setEntry _ he {}
  here inS _ := held_clear inS used
  elsewhere out _ := held_set_of_notMem out
  addressed := by
    refine addressed.erase ?_
    rw [← holds b]
    exact mem_held.mpr ⟨_, mem_toFinset.mpr mem, he.slot, used, rfl⟩
  frame := ⟨⟨rfl, rfl, rfl, rfl, rfl⟩, by funext p; cases p <;> rfl, next_setEntry _ he {}, rfl, rfl⟩

/-- The hole of an entry deleted elsewhere in the chain is filled from the head. -/
theorem clear_tail (nodup : ∀ p, (cells p).Nodup) (chain : cells (.bucket b) = c :: rest)
    (mem : he.bucketEntry ∈ rest) (ofBucket : hashIdx / bucketSize = b) (small : hashIdx < 2 ^ 32) :
    ∃ twice j, Cleared h ((finRange 4).foldl (moveStep c he.bucketEntry hashIdx)
        ((h.setAddr (h.entry he).blkaddress 0).setEntry he {}, 0)).1
      contents cells b c he twice j := by
  have distinct := nodup (.bucket b)
  rw [chain, nodup_cons] at distinct
  have apart : c ≠ he.bucketEntry := fun same => distinct.1 (same ▸ mem)
  have memD : he.bucketEntry ∈ cells (.bucket b) := chain ▸ mem_cons_of_mem _ mem
  have memC : c ∈ cells (.bucket b) := chain ▸ mem_cons_self
  -- the entries once the deleted one is cleared
  have holed : ((h.setAddr (h.entry he).blkaddress 0).setEntry he {}).entries =
      set h.entries he.bucketEntry he.slot {} := entries_setEntry _ he {}
  have inHead : ∀ k, ((h.setAddr (h.entry he).blkaddress 0).setEntry he {}).entry ⟨c, k⟩ =
      h.entries c k := fun k => (congrFun (congrFun holed c) k).trans
    (congrFun (set_of_ne_cell apart) k)
  have hole : (((h.setAddr (h.entry he).blkaddress 0).setEntry he {}).entry he).used = false :=
    congrArg HashEntry.used ((congrFun (congrFun holed he.bucketEntry) he.slot).trans set_self)
  obtain ⟨j, usedJ, result⟩ := foldl_moveStep_hole hashIdx apart hole (fun k ne => by
      have kept := (congrFun (congrFun holed he.bucketEntry) k).trans (set_of_ne_slot ne)
      exact (congrArg HashEntry.used kept).trans (filled.full chain _ mem k))
    (by
      obtain ⟨k, usedK⟩ := filled.head chain
      exact ⟨k, by rw [inHead]; exact usedK⟩)
  rw [inHead] at usedJ result
  have movedOut : set h.entries he.bucketEntry he.slot (h.entries c j) c j = h.entries c j :=
    congrFun (set_of_ne_cell apart) j
  have here : ∀ {s : Finset ℕ}, c ∈ s → he.bucketEntry ∈ s →
      h.entry he ::ₘ held (set (set h.entries he.bucketEntry he.slot (h.entries c j))
        c j {}) s = held h.entries s := by
    intro s inC inD
    have replaced : h.entry he ::ₘ
        held (set h.entries he.bucketEntry he.slot (h.entries c j)) s =
          h.entries c j ::ₘ held h.entries s := held_replace inD used usedJ
    have cleared := held_clear inC (movedOut.symm ▸ usedJ)
    rw [movedOut] at cleared
    rw [← cleared, Multiset.cons_swap, Multiset.cons_inj_right] at replaced
    exact replaced
  refine ⟨set h.entries he.bucketEntry he.slot (h.entries c j), j, filled.fill memD usedJ,
    ?_, here, fun outC outD => ?_, ?_, ?_⟩
  · rw [result]
    have : (((h.setAddr (h.entry he).blkaddress 0).setEntry he {}).setEntry he
        (h.entries c j)).entries = set h.entries he.bucketEntry he.slot (h.entries c j) := by
      rw [entries_setEntry, holed, Slots.set_set]
    rw [← this]
    exact entries_setEntry _ ⟨c, j⟩ {}
  · rw [held_set_of_notMem outC, held_set_of_notMem outD]
  · have erased := addressed.erase (e := h.entry he) (b := b) (by
      rw [← holds b]
      exact mem_held.mpr ⟨_, mem_toFinset.mpr memD, he.slot, used, rfl⟩)
    have stays : h.entries c j ∈ Table.taken contents b (h.entry he) b := by
      rw [taken, update_self, ← holds b,
        ← here (mem_toFinset.mpr memC) (mem_toFinset.mpr memD), Multiset.erase_cons_head]
      refine mem_held.mpr ⟨he.bucketEntry, mem_toFinset.mpr memD, he.slot, ?_⟩
      rw [set_of_ne_cell (Ne.symm apart), set_self]
      exact ⟨usedJ, rfl⟩
    rw [result]
    exact erased.rewrite stays small fun _ => ofBucket
  · rw [result]
    refine ⟨⟨rfl, rfl, rfl, rfl, rfl⟩, by funext p; cases p <;> rfl, ?_, rfl, rfl⟩
    exact (next_setEntry _ ⟨c, j⟩ {}).trans ((next_setEntry _ he _).trans (next_setEntry _ he _))

/-- A cleared entry leaves a chain that is full behind its head. -/
theorem clearEntry_cleared (nodup : ∀ p, (cells p).Nodup)
    (start : h.hashBuckets (hashIdx / bucketSize) = c + 1)
    (chain : cells (.bucket (hashIdx / bucketSize)) = c :: rest)
    (mem : he.bucketEntry ∈ cells (.bucket (hashIdx / bucketSize))) (small : hashIdx < 2 ^ 32) :
    ∃ twice j, Cleared h (clearEntry h he hashIdx) contents cells (hashIdx / bucketSize) c he
      twice j := by
  simp only [clearEntry, start, Nat.add_sub_cancel]
  by_cases head : c = he.bucketEntry
  · rw [if_pos head, head]
    exact ⟨_, _, clear_head filled holds addressed used mem⟩
  · rw [if_neg head]
    rw [chain, mem_cons] at mem
    exact clear_tail filled holds addressed used nodup chain (mem.resolve_left (Ne.symm head)) rfl
      small

end

/-- With the chains as they were, or without an empty bucket entry, the invariant holds for the
cleared entries. -/
theorem Inv.cleared_out {n : ℕ} {cleared : HashHandle}
    {twice : ℕ → Fin 4 → HashEntry} {j : Fin 4} (inv : Inv ⟨h, contents⟩ cells)
    (clear : Cleared { h with allocCount := n } cleared contents cells b c he twice j)
    (memC : c ∈ cells (.bucket b)) (mem : he.bucketEntry ∈ cells (.bucket b))
    (used : n + 1 = h.allocCount)
    (linked : Linked h' cells') (filled : Filled (set twice c j {}) cells')
    (entries : h'.entries = cleared.entries)
    (same : ∀ b', held (set twice c j {}) (cells' (.bucket b')).toFinset =
      held (set twice c j {}) (cells (.bucket b')).toFinset)
    (table : h'.addrTable = cleared.addrTable) (addrs : h'.addrSize = cleared.addrSize)
    (index : h'.hashTableIdx = cleared.hashTableIdx) (count : h'.allocCount = cleared.allocCount) :
    Inv ⟨h', taken contents b (h.entry he)⟩ cells' := by
  have final : h'.entries = set twice c j {} := entries.trans clear.entries
  have holds : ∀ b, held h.entries (cells (.bucket b)).toFinset = contents b := inv.contents
  refine ⟨linked, by simpa only [final] using filled, fun b' => ?_, ?_, ?_⟩
  · simp only [final, same, taken]
    by_cases here : b' = b
    · subst here
      have less := clear.here (mem_toFinset.mpr memC) (mem_toFinset.mpr mem)
      rw [update_self, ← holds b']
      exact (Multiset.erase_cons_head _ _).symm.trans (congrArg (Multiset.erase · _) less)
    · have apart : ∀ {d}, d ∈ cells (.bucket b) → d ∉ (cells (.bucket b')).toFinset :=
        fun mem' there => here (chain_unique inv.linked.lists mem' (mem_toFinset.mp there))
      rw [update_of_ne here, ← holds b']
      exact clear.elsewhere (apart memC) (apart mem)
  · have below : ∀ {d}, d ∈ cells (.bucket b) → d ∈ Finset.range h.hashTableIdx :=
      fun mem' => Finset.mem_range.mpr (mem_chain_lt inv.linked mem')
    have less := congrArg Multiset.card (clear.here (below memC) (below mem))
    rw [Multiset.card_cons] at less
    have before := inv.count
    simp only [final, count, clear.frame.count, index, clear.frame.index]
    exact Nat.succ.inj (used.trans (before.trans less.symm))
  · simp only [table, addrs]
    exact clear.addressed

/-- A deletion keeps the invariant, or is out of bounds where the hash index has no lock. -/
theorem Inv.hashEntryDelete (inv : Inv ⟨h, contents⟩ cells) (small : hashIdx < 2 ^ 32)
    (room : hashIdx / bucketSize < h.buckets) (used : (h.entry he).used = true)
    (inChain : he.bucketEntry ∈ cells (.bucket (hashIdx / bucketSize))) :
    (h.lockBuckets ≤ hashIdx / h.lockBktsize ∧ hashEntryDelete h he hashIdx = none) ∨
      ∃ h' cells', hashEntryDelete h he hashIdx = some h' ∧
        Inv ⟨h', taken contents (hashIdx / bucketSize) (h.entry he)⟩ cells' ∧
        SameSizes h h' ∧ h'.hashTableIdx = h.hashTableIdx := by
  have chained : Chained h.next (h.hashBuckets (hashIdx / bucketSize)) _ :=
    inv.linked.lists.chained (.bucket (hashIdx / bucketSize))
  have found : h.onChain he.bucketEntry (h.hashTableIdx + 1)
      (h.hashBuckets (hashIdx / bucketSize)) = true :=
    onChain_of_mem chained inChain (Nat.le_succ_of_le (inv.linked.length_le _))
  obtain ⟨c, rest, chain⟩ := exists_cons_of_ne_nil (ne_nil_of_mem inChain)
  have start : h.hashBuckets (hashIdx / bucketSize) = c + 1 := by
    rw [chain] at chained
    exact chained.1
  obtain ⟨twice, j, clear⟩ := clearEntry_cleared (h := { h with allocCount := h.allocCount - 1 })
    inv.filled inv.contents inv.addressed used inv.linked.lists.nodup start chain inChain small
  have memC : c ∈ cells (.bucket (hashIdx / bucketSize)) := chain ▸ mem_cons_self
  have some : h.allocCount - 1 + 1 = h.allocCount := by
    have count : h.allocCount = (held h.entries (Finset.range h.hashTableIdx)).card := inv.count
    rw [count]
    refine Nat.sub_add_cancel (Multiset.card_pos_iff_exists_mem.mpr ⟨h.entry he, ?_⟩)
    exact mem_held.mpr ⟨_, Finset.mem_range.mpr (mem_chain_lt inv.linked inChain), _, used, rfl⟩
  generalize shape : clearEntry { h with allocCount := h.allocCount - 1 } he hashIdx = cleared
    at clear
  have frame := clear.frame
  have linked : Linked cleared cells := inv.linked.congr
    (frame.first.trans (by funext p; cases p <;> rfl)) frame.next frame.index frame.sizes.max
    frame.sizes.size frame.sizes.locks
  have sizes : SameSizes h cleared :=
    { frame.sizes with }
  have head : cleared.hashBuckets (hashIdx / bucketSize) = c + 1 :=
    (congrFun frame.first (.bucket _)).trans start
  have inHead : (cleared.hashTable (cleared.hashBuckets (hashIdx / bucketSize) - 1)).hashEntry =
      set twice c j {} c := by
    rw [head, Nat.add_sub_cancel]
    exact congrFun clear.entries c
  simp only [Flash.hashEntryDelete, Nat.mod_eq_of_lt small, if_neg (not_le.mpr room), found,
    Bool.true_eq_false, if_false, shape, inHead]
  by_cases none : ∀ i, (set twice c j {} c i).used = false
  · rw [if_pos none]
    by_cases lock : h.lockBuckets ≤ hashIdx / h.lockBktsize
    · exact .inl ⟨lock, if_pos lock⟩
    · rw [if_neg lock]
      have released := linked.releaseHead chain (l := hashIdx / h.lockBktsize)
        (by rw [sizes.locks]; exact not_le.mp lock)
      refine .inr ⟨_, _, rfl, inv.cleared_out clear memC inChain some released
        (clear.filled.release inv.linked.lists chain none
          (by simp [movedCells]) fun apart => by simp [movedCells, apart])
        ((comp_update BucketEntry.hashEntry ..).trans (update_eq_self ..)) (fun b' => ?_) rfl rfl rfl rfl,
        { sizes with }, frame.index⟩
      by_cases same : b' = hashIdx / bucketSize
      · subst same
        rw [chain, toFinset_cons, held_insert none]
        simp [movedCells]
      · simp [movedCells, same]
  · rw [if_neg none]
    have left : ∃ i, (set twice c j {} c i).used = true := by
      simpa only [not_forall, Bool.not_eq_false] using none
    exact .inr ⟨_, _, rfl, inv.cleared_out clear memC inChain some linked
      (clear.filled.clear inv.linked.lists chain left) rfl
      (fun _ => rfl) rfl rfl rfl rfl, sizes, frame.index⟩

end

/-- The first loop either does nothing or ends with many locks. -/
theorem growLocks_spec (bktsize buckets : ℕ) :
    ∃ k, (growLocks bktsize buckets).1 = bktsize * 2 ^ k ∧
      (k = 0 → (growLocks bktsize buckets).2 = buckets) ∧
      (0 < k → 131072 ≤ (growLocks bktsize buckets).2) := by
  fun_induction growLocks bktsize buckets with
  | case1 bktsize buckets many ih =>
    obtain ⟨k, size, done, more⟩ := ih
    refine ⟨k + 1, ?_, nofun, fun _ => ?_⟩
    · rw [size, Nat.pow_succ', mul_assoc]
    · rcases Nat.eq_zero_or_pos k with zero | pos
      · rw [done zero]
        unfold maxLockBuckets at many
        omega
      · exact more pos
  | case2 bktsize buckets few => exact ⟨0, by simp, fun _ => rfl, nofun⟩

/-- The second loop keeps the number of hash indexes covered; it ends with enough locks or with the
smallest ones. -/
theorem shrinkLocks_spec (k buckets : ℕ) :
    ∃ k' ≤ k, (shrinkLocks (bucketSize * 2 ^ k) buckets).1 = bucketSize * 2 ^ k' ∧
      (shrinkLocks (bucketSize * 2 ^ k) buckets).1 * (shrinkLocks (bucketSize * 2 ^ k) buckets).2 =
        bucketSize * 2 ^ k * buckets ∧
      (32768 ≤ (shrinkLocks (bucketSize * 2 ^ k) buckets).2 ∨ k' = 0) ∧
      (32768 ≤ buckets → k' = k) := by
  induction k generalizing buckets with
  | zero =>
    have last : ¬(buckets < 32768 ∧ bucketSize ≤ bucketSize * 2 ^ 0 / 2) := by
      unfold bucketSize
      omega
    rw [shrinkLocks, if_neg last]
    exact ⟨0, le_rfl, rfl, rfl, .inr rfl, fun _ => rfl⟩
  | succ k ih =>
    have half : bucketSize * 2 ^ (k + 1) / 2 = bucketSize * 2 ^ k := by
      rw [pow_succ, ← mul_assoc, Nat.mul_div_cancel _ (by decide)]
    have large : bucketSize ≤ bucketSize * 2 ^ k := Nat.le_mul_of_pos_right _ (Nat.two_pow_pos k)
    by_cases few : buckets < 32768
    · rw [shrinkLocks, half, if_pos ⟨few, large⟩]
      obtain ⟨k', le, size, product, enough, _⟩ := ih (buckets * 2)
      refine ⟨k', Nat.le_succ_of_le le, size, ?_, enough, fun many => (not_lt.mpr many few).elim⟩
      rw [product, pow_succ, mul_comm buckets, ← mul_assoc, ← mul_assoc]
    · rw [shrinkLocks, if_neg fun both => few both.1]
      exact ⟨k + 1, le_rfl, rfl, rfl, .inl (not_lt.mp few), fun _ => rfl⟩

/-- The size of a lock is a multiple of a bucket's; there are as many locks, unless there are very
many hash indexes. -/
theorem locks_spec (params : InitParams) : bucketSize ∣ params.locks.1 ∧ 0 < params.locks.1 ∧
      (0 < params.locks.2 → params.locks.1 * params.locks.2 ≤ 2 ^ 32 →
        params.locks.1 ≤ params.locks.2) := by
  obtain ⟨k, size, done, more⟩ :=
    growLocks_spec lockbktMinsize ((params.hashSize + lockbktMinsize - 1) / lockbktMinsize)
  have grown : (growLocks lockbktMinsize
      ((params.hashSize + lockbktMinsize - 1) / lockbktMinsize)).1 = bucketSize * 2 ^ (k + 4) := by
    rw [size, pow_add, mul_comm (2 ^ k), ← mul_assoc]
    rfl
  unfold InitParams.locks
  simp only [grown]
  generalize (growLocks lockbktMinsize
    ((params.hashSize + lockbktMinsize - 1) / lockbktMinsize)).2 = buckets at done more
  obtain ⟨k', le, size', product, enough, kept⟩ := shrinkLocks_spec (k + 4) buckets
  refine ⟨⟨_, size'⟩, ?_, fun some small => ?_⟩
  · rw [size']
    exact Nat.mul_pos (by decide) (Nat.two_pow_pos k')
  generalize shape : (shrinkLocks (bucketSize * 2 ^ (k + 4)) buckets) = final at *
  rcases Nat.eq_zero_or_pos k with rfl | pos
  · -- locks of the initial size, perhaps halved
    have bound : 2 ^ k' ≤ 2 ^ 4 := Nat.pow_le_pow_right (by decide) le
    unfold bucketSize at size' product
    rcases enough with many | rfl
    · omega
    · rw [size'] at product ⊢
      omega
  · -- many locks, which the second loop leaves alone
    have many := more pos
    obtain rfl := kept (le_trans (by decide) many)
    have same : final.2 = buckets := by
      rw [size'] at product
      exact Nat.eq_of_mul_eq_mul_left (Nat.mul_pos (by decide) (Nat.two_pow_pos _)) product
    by_contra more
    have : 131072 * 131072 ≤ final.1 * buckets := Nat.mul_le_mul (by omega) many
    rw [size'] at this
    omega

variable (params : InitParams)

/-- The locks cover the hash indexes, which fit into 32 bits. -/
def InitParams.Covered : Prop :=
  (hashTableInit params).hashSize ≤ 2 ^ 32 ∧
    (hashTableInit params).hashSize ≤
      (hashTableInit params).lockBktsize * (hashTableInit params).lockBuckets

open InitParams

/-- Every sequence of calls returns and ends with the structure. -/
def InitParams.KeepsStructure : Prop :=
  ∀ calls, Machine.Admitted Table.step Table.Legal (Table.init params) calls →
    ∃ final cells, run Table.step (Table.init params) calls = some final ∧
      final.Structured cells

variable {params}

theorem InitParams.hashSize_pos (blocks : 0 < params.totalSize / params.blkSize) :
    0 < params.hashSize := by
  have size : 0 < if 0 < params.maxNobjs ∧ params.maxNobjs < params.totalSize / params.blkSize then
      (params.maxNobjs + params.segmentBlks - 1) / params.segmentBlks * params.segmentBlks
    else params.totalSize / params.blkSize := by
    split_ifs with limited
    · have := params.segmentBlks_pos
      exact Nat.mul_pos (Nat.div_pos (by omega) this) this
    · exact blocks
  exact lt_of_lt_of_le size (Nat.le_add_right _ _)

theorem InitParams.blocks_pos (size : 0 < params.hashSize) :
    0 < params.totalSize / params.blkSize := by
  by_contra none
  rw [not_lt, Nat.le_zero] at none
  simp [hashSize, objects, none] at size

/-- Then every bucket has a lock. -/
theorem covers_init (covered : params.Covered) : Covers (hashTableInit params) := by
  obtain ⟨aligned, _, scan⟩ := locks_spec params
  have size : (hashTableInit params).hashSize = params.locks.1 * params.locks.2 :=
    le_antisymm covered.2 (le_max_right _ _)
  refine ⟨size, aligned, fun pos => ?_, covered.1,
    fun blocks => lt_of_lt_of_le (hashSize_pos blocks) (le_max_left _ _)⟩
  have small := covered.1
  rw [size] at pos small
  exact scan (Nat.pos_of_mul_pos_left pos) small

/-- An empty table. -/
theorem inv_init (params : InitParams) : Inv (Table.init params) fun _ => [] where
  linked :=
    { lists := ⟨fun p => by cases p <;> rfl, fun _ => nodup_nil, fun mem => by cases mem⟩
      members := fun c => ⟨nofun,
        nofun⟩
      inRange := fun mem => by cases mem
      bound := Nat.zero_le _ }
  filled :=
    { cleared := fun _ => rfl
      head := fun chain => by cases chain
      full := fun chain => by cases chain
      unused := fun _ _ => rfl }
  contents _ := rfl
  count := rfl
  addressed :=
    { inTable := fun mem => (Multiset.notMem_zero _ mem).elim
      nodup := fun _ => Multiset.nodup_zero
      only := fun mem => (Multiset.notMem_zero _ mem).elim
      named := fun _ mem => (Multiset.notMem_zero _ mem).elim }

/-- One call returns and keeps the invariant. -/
theorem Inv.step (inv : Inv t cells) (covers : Covers t.handle)
    {call : Call} (legal : t.Legal call) :
    ∃ next cells', t.step call = some next ∧ Inv next cells' ∧ Covers next.handle := by
  have kept : ∃ next cells', t.step call = some next ∧ Inv next cells' ∧
      SameSizes t.handle next.handle := by
    cases call with
    | insert isset syndrome e =>
      rcases inv.insertEntry covers isset syndrome legal.1 legal.2 with
        ⟨full, _⟩ | ⟨h', cells', inserted, inv', sizes, _⟩
      · exact ⟨t, cells, by simp [Table.step, full], inv, .refl _⟩
      · exact ⟨_, cells', by simp [Table.step, inserted], inv', sizes⟩
    | recover obj blkOffset => exact inv.recover legal
    | delete he hashIdx =>
      obtain ⟨small, room, used, chain, chained, inChain⟩ := legal
      obtain rfl := (inv.linked.lists.chained (.bucket (hashIdx / bucketSize))).unique chained
      rcases inv.hashEntryDelete small room used inChain with
        ⟨past, _⟩ | ⟨h', cells', deleted, inv', sizes, _⟩
      · exact (not_lt.mpr past (covers.lock_lt (covers.index_lt room))).elim
      · exact ⟨_, cells', by simp [Table.step, deleted], inv', sizes⟩
  obtain ⟨next, cells', taken, inv', sizes⟩ := kept
  exact ⟨next, cells', taken, inv', covers.congr sizes⟩

section

-- the slot `0` of the two definitions
local instance slots_neZero : NeZero 4 := ⟨by decide⟩

/-- The first hash index past the locks: its entry cannot be deleted, if it can be inserted. -/
def pastLocks (params : InitParams) : List Call :=
  let hashIdx := (hashTableInit params).lockBktsize * (hashTableInit params).lockBuckets
  [.insert (fun _ => false) hashIdx { used := true }, .delete ⟨0, 0⟩ hashIdx]

/-- The table with one entry, in the first bucket entry. -/
abbrev oneEntry (h : HashHandle) (hashIdx : ℕ) (e : HashEntry) : HashHandle :=
  ((h.takeFresh (hashIdx / bucketSize)).counted.setEntry ⟨0, 0⟩ e).setAddr e.blkaddress hashIdx

end

/-- The first insertion is out of bounds, of the buckets or of the map of free lists, or makes the one
entry. -/
theorem insertEntry_first (below : hashIdx < h.hashSize) (index : h.hashTableIdx = 0)
    (left : 0 < h.buckets → 0 < h.maxHashTableIdx) (none : ∀ b, h.hashBuckets b = 0)
    (inTable : e.blkaddress < h.addrSize) : insertEntry (fun _ => false) h hashIdx e =
      if h.buckets ≤ hashIdx / bucketSize ∨ h.mapBits ≤ hashIdx / h.lockBktsize then Option.none
      else some (oneEntry h hashIdx e, true) := by
  simp only [insertEntry, hashEntryInsertByKey, Nat.mod_eq_of_lt below]
  by_cases room : h.buckets ≤ hashIdx / bucketSize
  · rw [if_pos room, if_pos (.inl room)]
  · rw [if_neg room, headHole, if_pos (none _)]
    by_cases map : h.mapBits ≤ hashIdx / h.lockBktsize
    · simp [popLists, map]
    · have fresh := left (Nat.zero_lt_of_lt (not_le.mp room))
      simp only [popLists, index, if_pos fresh, Bool.false_eq_true, if_false, room, map, or_self]
      simp [fillEntry, takeFresh, counted, headEntry, setEntry, setAddr, index, not_le.mpr inTable]

theorem hashEntryDelete_pastLocks
    (small : hashIdx < 2 ^ 32) (room : hashIdx / bucketSize < h.buckets)
    (lock : h.lockBuckets ≤ hashIdx / h.lockBktsize) (index : h.hashTableIdx = 0)
    (empty : ∀ i, (h.entries 0 i).used = false) :
    hashEntryDelete (oneEntry h hashIdx e) ⟨0, 0⟩ hashIdx = none := by
  have start : (oneEntry h hashIdx e).hashBuckets (hashIdx / bucketSize) = 1 := by
    simp [oneEntry, setAddr, setEntry, counted, takeFresh, index]
  have onlyEntry : (oneEntry h hashIdx e).entries 0 = update (h.entries 0) 0 e := by
    simp [oneEntry, setAddr, setEntry, counted, takeFresh, entries, index]
  have found : (oneEntry h hashIdx e).onChain 0 ((oneEntry h hashIdx e).hashTableIdx + 1) 1 = true := by
    rw [onChain, if_neg one_ne_zero, if_pos rfl]
  have cleared : ∀ i, ((clearEntry { oneEntry h hashIdx e with
      allocCount := (oneEntry h hashIdx e).allocCount - 1 } ⟨0, 0⟩ hashIdx).entries 0 i).used =
      false := by
    intro i
    simp only [clearEntry, start, Nat.sub_self, if_true, entries_setEntry]
    by_cases same : i = 0
    · rw [same, set_self]
    · rw [set_of_ne_slot same]
      change ((oneEntry h hashIdx e).entries 0 i).used = false
      rw [onlyEntry, update_of_ne same]
      exact empty i
  have head : (clearEntry { oneEntry h hashIdx e with
      allocCount := (oneEntry h hashIdx e).allocCount - 1 } ⟨0, 0⟩ hashIdx).hashBuckets
        (hashIdx / bucketSize) = 1 := by
    simp only [clearEntry, start, Nat.sub_self, if_true]
    exact start
  have full : (oneEntry h hashIdx e).lockBuckets ≤ hashIdx / (oneEntry h hashIdx e).lockBktsize := lock
  have inRange : ¬(oneEntry h hashIdx e).buckets ≤ hashIdx / bucketSize := not_le.mpr room
  simp only [hashEntryDelete, Nat.mod_eq_of_lt small, if_neg inRange, start, found,
    Bool.true_eq_false, if_false, head, Nat.sub_self]
  exact (if_pos cleared).trans (if_pos full)

/-- A table of at most 2 ^ 32 hash indexes has bucket entries if it has buckets. -/
theorem maxHashTableIdx_init_pos (small : (hashTableInit params).hashSize ≤ 2 ^ 32) :
    0 < (hashTableInit params).buckets → 0 < (hashTableInit params).maxHashTableIdx := by
  change 0 < (hashTableInit params).hashSize / 16 → 0 < ((hashTableInit params).hashSize / 4 +
    (hashTableInit params).hashSize / 16) % 2 ^ 32
  rw [Nat.mod_eq_of_lt (by omega)]
  omega

/-- Where hash indexes are not covered there are blocks. -/
theorem addrSize_init_pos (past : (hashTableInit params).lockBktsize *
    (hashTableInit params).lockBuckets < (hashTableInit params).hashSize) :
    0 < (hashTableInit params).addrSize := by
  have size : (hashTableInit params).hashSize = params.hashSize := by
    refine max_eq_left (not_lt.mp fun more => ?_)
    exact lt_irrefl _ (past.trans_eq (max_eq_right more.le))
  exact blocks_pos (size ▸ Nat.zero_lt_of_lt past)

theorem lock_pastLocks (params : InitParams) :
    (hashTableInit params).lockBktsize * (hashTableInit params).lockBuckets /
      (hashTableInit params).lockBktsize = (hashTableInit params).lockBuckets :=
  Nat.mul_div_cancel_left _ (locks_spec params).2.1

/-- A bucket without a lock makes the code read past the locks. -/
theorem pastLocks_fault (small : (hashTableInit params).hashSize ≤ 2 ^ 32)
    (past : (hashTableInit params).lockBktsize * (hashTableInit params).lockBuckets <
      (hashTableInit params).hashSize) :
    Machine.Admitted Table.step Table.Legal (Table.init params) (pastLocks params) ∧
      run Table.step (Table.init params) (pastLocks params) = none := by
  have blocks := addrSize_init_pos past
  have left := maxHashTableIdx_init_pos small
  have lock := lock_pastLocks params
  have free : (Table.init params).Free 0 := ⟨blocks, fun b e mem => (Multiset.notMem_zero e mem).elim⟩
  unfold pastLocks
  generalize (hashTableInit params).lockBktsize * (hashTableInit params).lockBuckets = hashIdx
    at past lock ⊢
  have inserted := insertEntry_first (e := { used := true }) past rfl left (fun _ => rfl) blocks
  split_ifs at inserted with fault
  · have first : (Table.init params).step (.insert (fun _ => false) hashIdx { used := true }) =
        none := by
      simp [step, init, inserted]
    exact ⟨⟨⟨rfl, free⟩, fun next taken => by rw [first] at taken; cases taken⟩,
      by rw [run_cons, first]; rfl⟩
  · have first : (Table.init params).step (.insert (fun _ => false) hashIdx { used := true }) =
        some ⟨oneEntry (hashTableInit params) hashIdx { used := true }, added (fun _ => 0)
          (hashIdx % (hashTableInit params).hashSize / bucketSize) { used := true }⟩ := by
      simp [step, init, inserted]
    have room := not_le.mp (not_or.mp fault).1
    have second := hashEntryDelete_pastLocks (e := { used := true }) (past.trans_le small) room
      lock.ge rfl fun _ => rfl
    refine ⟨⟨⟨rfl, free⟩, fun next taken => ?_⟩, ?_⟩
    · cases first.symm.trans taken
      refine ⟨⟨past.trans_le small, room, ?_, [0], ?_, mem_singleton_self 0⟩, fun _ _ => trivial⟩
      · simp [oneEntry, entry, setAddr, setEntry]
      · simp [oneEntry, setAddr, setEntry, counted, takeFresh, hashTableInit, HashHandle.next]
    · rw [run_cons, first, Option.bind_some, run_cons, step, second]
      rfl

/-- The structure is kept where the locks cover the hash indexes; with indexes of 32 bits, nowhere
else. -/
theorem keepsStructure_covered (params : InitParams) :
    (params.Covered → params.KeepsStructure) ∧
      (params.KeepsStructure → (hashTableInit params).hashSize ≤ 2 ^ 32 → params.Covered) := by
  constructor
  · intro covered calls admitted
    obtain ⟨final, reached, cells, inv, _⟩ := @run_total _ _ _ _
      (fun t => ∃ cells, Inv t cells ∧ Covers t.handle) _ _
      (fun ⟨cells, inv, covers⟩ legal => by
        obtain ⟨next, cells', taken, inv', covers'⟩ := inv.step covers legal
        exact ⟨next, taken, cells', inv', covers'⟩)
      ⟨_, inv_init params, covers_init covered⟩ admitted
    exact ⟨final, cells, reached, inv.structured⟩
  · intro keeps small
    refine ⟨small, not_lt.mp fun past => ?_⟩
    obtain ⟨admitted, fault⟩ := pastLocks_fault small past
    obtain ⟨final, cells, reached, _⟩ := keeps _ admitted
    cases fault.symm.trans reached

/-- A shard of 52431 segments of 32 MiB, with blocks of 16 KiB: 134223360 hash indexes, and 131077
locks of 1024 indexes each. -/
def oddLocks : InitParams where
  totalSize := 52431 * 33554432
  maxNobjs := 0
  blkSize := 16384
  segmentBlks := 2048
  stormMode := false
  blkSize_pos := by decide
  segmentBlks_pos := by decide

theorem locks_oddLocks : oddLocks.locks = (1024, 131077) := by
  have size : oddLocks.hashSize = 134223360 := by decide
  have grown : growLocks lockbktMinsize ((134223360 + lockbktMinsize - 1) / lockbktMinsize) =
      (1024, 131077) := by
    rw [growLocks, if_pos (by decide), growLocks, if_pos (by decide), growLocks,
      if_neg (by decide)]
    rfl
  rw [locks, size]
  simp only [grown]
  rw [shrinkLocks, if_neg (by decide)]

theorem sizes_oddLocks : (hashTableInit oddLocks).lockBktsize = 1024 ∧
    (hashTableInit oddLocks).lockBuckets = 131077 ∧
    (hashTableInit oddLocks).hashSize = 134223360 := by
  refine ⟨congrArg Prod.fst locks_oddLocks, congrArg Prod.snd locks_oddLocks, ?_⟩
  change max oddLocks.hashSize (oddLocks.locks.1 * oddLocks.locks.2) = 134223360
  rw [locks_oddLocks]
  decide

/-- There an entry can be inserted at hash index 134222848, but not be deleted: the free list of its
lock is out of bounds. -/
theorem last_index_without_lock :
    Machine.Admitted Table.step Table.Legal (Table.init oddLocks)
        [.insert (fun _ => false) 134222848 { used := true }, .delete ⟨0, 0⟩ 134222848] ∧
      (insertEntry (fun _ => false) (hashTableInit oddLocks) 134222848 { used := true }).isSome =
        true ∧
      run Table.step (Table.init oddLocks)
        [.insert (fun _ => false) 134222848 { used := true }, .delete ⟨0, 0⟩ 134222848] = none := by
  obtain ⟨bktsize, locks, size⟩ := sizes_oddLocks
  have small : (hashTableInit oddLocks).hashSize ≤ 2 ^ 32 := by rw [size]; decide
  have fault := pastLocks_fault small (by rw [size, bktsize, locks]; decide)
  rw [pastLocks, bktsize, locks] at fault
  have inserted := insertEntry_first (h := hashTableInit oddLocks) (e := { used := true })
    (show 134222848 < (hashTableInit oddLocks).hashSize by rw [size]; decide) rfl
    (maxHashTableIdx_init_pos small) (fun _ => rfl) (by decide)
  rw [if_neg (by rw [mapBits, buckets, size, bktsize, locks]; decide)] at inserted
  exact ⟨fault.1, by rw [inserted]; rfl, fault.2⟩

/-- The first loop covers all groups of hash indexes exactly when it only halves even numbers, that
is when the number of groups is a power of two times a number of locks that is small enough. -/
theorem growLocks_product (bktsize buckets : ℕ) :
    (growLocks bktsize buckets).1 * (growLocks bktsize buckets).2 ≤ bktsize * buckets ∧
      (0 < bktsize →
        ((growLocks bktsize buckets).1 * (growLocks bktsize buckets).2 = bktsize * buckets ↔
          ∃ k m, buckets = 2 ^ k * m ∧ m ≤ maxLockBuckets)) := by
  fun_induction growLocks bktsize buckets with
  | case1 bktsize buckets many ih =>
    obtain ⟨le, iff⟩ := ih
    have step : bktsize * 2 * (buckets / 2) ≤ bktsize * buckets := by
      rw [mul_assoc]
      exact Nat.mul_le_mul_left _ (Nat.mul_div_le buckets 2)
    refine ⟨le.trans step, fun positive => ?_⟩
    constructor
    · intro same
      have even : bktsize * 2 * (buckets / 2) = bktsize * buckets := by omega
      rw [mul_assoc] at even
      have even' := Nat.eq_of_mul_eq_mul_left positive even
      obtain ⟨k, m, half, small⟩ := (iff (by omega)).mp (by omega)
      refine ⟨k + 1, m, ?_, small⟩
      rw [← even', half, pow_succ']
      ring
    · rintro ⟨k, m, rfl, small⟩
      cases k with
      | zero =>
        rw [pow_zero, one_mul] at many
        exact absurd small (not_le.mpr many)
      | succ k =>
        have half : 2 ^ (k + 1) * m / 2 = 2 ^ k * m := by
          rw [pow_succ', mul_assoc, Nat.mul_div_cancel_left _ (by decide)]
        rw [(iff (by omega)).mpr ⟨k, m, half, small⟩, half, pow_succ']
        ring
  | case2 bktsize buckets few => exact ⟨le_rfl, fun _ => ⟨fun _ => ⟨0, buckets, by simp, not_lt.mp few⟩,
      fun _ => rfl⟩⟩

/-- The groups of 256 hash indexes for the objects of a shard, a quarter more indexes than objects,
can be put together evenly until there are no more than 262144. -/
def InitParams.GroupsDivide (params : InitParams) : Prop :=
  ∃ k m, (params.objects + params.objects / 4 + 255) / 256 = 2 ^ k * m ∧ m ≤ 262144

/-- The locks cover all hash indexes that were provided for. -/
theorem locks_cover_iff (params : InitParams) :
    params.hashSize ≤ params.locks.1 * params.locks.2 ↔ params.GroupsDivide := by
  generalize groups : (params.hashSize + lockbktMinsize - 1) / lockbktMinsize = g
  obtain ⟨le, iff⟩ := growLocks_product lockbktMinsize g
  obtain ⟨k, size, -⟩ := growLocks_spec lockbktMinsize g
  have product : params.locks.1 * params.locks.2 =
      (growLocks lockbktMinsize g).1 * (growLocks lockbktMinsize g).2 := by
    have grown : (growLocks lockbktMinsize g).1 = bucketSize * 2 ^ (k + 4) := by
      rw [size, pow_add, mul_comm (2 ^ k), ← mul_assoc]
      rfl
    obtain ⟨-, -, -, kept, -⟩ := shrinkLocks_spec (k + 4) (growLocks lockbktMinsize g).2
    simp only [InitParams.locks, groups, grown]
    exact kept
  have aligned : lockbktMinsize ∣ (growLocks lockbktMinsize g).1 * (growLocks lockbktMinsize g).2 :=
    size ▸ (Dvd.intro _ rfl : lockbktMinsize ∣ lockbktMinsize * 2 ^ k).mul_right _
  have divide : params.GroupsDivide ↔ ∃ k m, g = 2 ^ k * m ∧ m ≤ maxLockBuckets := by
    rw [← groups]
    exact Iff.rfl
  rw [product, divide, ← iff (by decide)]
  -- the locks cover whole groups, and the last group is not empty
  obtain ⟨covered, whole⟩ := aligned
  rw [whole] at le ⊢
  clear divide iff product whole size
  unfold lockbktMinsize at *
  omega

/-- All hash indexes have a lock and a bucket exactly where the groups of 256 divide. -/
theorem hash_indexes_inside_iff (params : InitParams) :
    (∀ hashIdx < (hashTableInit params).hashSize,
        hashIdx / (hashTableInit params).lockBktsize < (hashTableInit params).lockBuckets ∧
          hashIdx / bucketSize < (hashTableInit params).buckets) ↔
      params.GroupsDivide := by
  have final : (hashTableInit params).hashSize =
    max params.hashSize (params.locks.1 * params.locks.2) := rfl
  rw [← locks_cover_iff]
  constructor
  · intro inside
    by_contra short
    have past := (inside (params.locks.1 * params.locks.2)
      (final ▸ lt_max_of_lt_left (not_le.mp short))).1
    exact past.ne (lock_pastLocks params)
  · intro suffice hashIdx below
    have size := final.trans (max_eq_right suffice)
    obtain ⟨k, aligned⟩ := (locks_spec params).1.mul_right params.locks.2
    refine ⟨Nat.div_lt_of_lt_mul (size ▸ below), ?_⟩
    rw [buckets, size, aligned, Nat.mul_div_cancel_left _ (by decide)]
    exact Nat.div_lt_of_lt_mul (by rwa [← aligned, ← size])

/-- The hash indexes from 134222848 on have no lock. -/
theorem hash_indexes_past_locks :
    134222848 < (hashTableInit oddLocks).hashSize ∧
      (hashTableInit oddLocks).lockBuckets ≤ 134222848 / (hashTableInit oddLocks).lockBktsize := by
  obtain ⟨bktsize, locks, size⟩ := sizes_oddLocks
  rw [bktsize, locks, size]
  decide

end Zetascale.Flash
