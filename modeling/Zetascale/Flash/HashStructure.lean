import Zetascale.Flash.HashTable
import Zetascale.Lib.Machine
import Zetascale.Lib.Slots

/-!
# The structure of the flash hash table

What holds after every sequence of insertions, recovery insertions and
deletions. Beside the handle goes what the table should hold: the multiset of
entries of each bucket, which an insertion extends by its entry and a deletion
takes its entry from.

The proof keeps three things apart: how the bucket entries are linked
(`Linked`), which of their slots are used (`Filled`), and what the address
table says (`Addressed`).
-/

namespace Zetascale.Flash

open Function HashHandle List Option Slots IndexLists

/-- Where a bucket entry can be: in the chain of a bucket or the free list of a lock. -/
inductive Place
  | bucket (b : ℕ)
  | lock (l : ℕ)
  deriving DecidableEq

namespace HashHandle

variable (h : HashHandle)

/-- The first link of a chain or free list. -/
def first : Place → ℕ
  | .bucket b => h.hashBuckets b
  | .lock l => h.freeList l

/-- The links between bucket entries. -/
def next (c : ℕ) : ℕ := (h.hashTable c).next

/-- The hash entries of the bucket entries. -/
def entries (c : ℕ) : Fin 4 → HashEntry := (h.hashTable c).hashEntry

/-- The chains and lists that the arrays have room for. -/
def InRange : Place → Prop
  | .bucket b => b < h.buckets
  | .lock l => l < h.lockBuckets

end HashHandle

variable {b : ℕ} {rest : List ℕ}

section

/-- The bucket entries handed out so far are each in one chain or free list, once. -/
structure Linked (h : HashHandle) (cells : Place → List ℕ) : Prop where
  lists : IndexLists h.first h.next cells
  members : ∀ c, (∃ p, c ∈ cells p) ↔ c < h.hashTableIdx
  inRange : ∀ {p c}, c ∈ cells p → h.InRange p
  bound : h.hashTableIdx ≤ h.maxHashTableIdx

variable {h : HashHandle} {cells : Place → List ℕ} {l : ℕ}

/-- The lists once the head of the list at `p` is moved to the list at `q`. -/
abbrev movedCells (cells : Place → List ℕ) (p q : Place) (c : ℕ) (rest : List ℕ) :
    Place → List ℕ := update (update cells p rest) q (c :: cells q)

section

variable {h' : HashHandle} (linked : Linked h cells)

include linked

/-- Writes to hash entries, the address table and the count leave the links alone. -/
theorem Linked.congr (first : h'.first = h.first)
    (next : h'.next = h.next) (index : h'.hashTableIdx = h.hashTableIdx)
    (max : h'.maxHashTableIdx = h.maxHashTableIdx) (size : h'.hashSize = h.hashSize)
    (locks : h'.lockBuckets = h.lockBuckets) : Linked h' cells where
  lists := by rw [first, next]; exact linked.lists
  members c := by rw [index]; exact linked.members c
  inRange {p c} mem := by
    have := linked.inRange mem
    cases p with
    | bucket b => simpa only [InRange, buckets, size] using this
    | lock l => simpa only [InRange, locks] using this
  bound := by rw [index, max]; exact linked.bound

theorem mem_chain_lt {p : Place} {c : ℕ} (mem : c ∈ cells p) :
    c < h.hashTableIdx := (linked.members c).mp ⟨p, mem⟩

theorem Linked.head (some : h.hashBuckets b ≠ 0) :
    ∃ rest, cells (.bucket b) = (h.hashBuckets b - 1) :: rest := linked.lists.exists_cons some

theorem Linked.empty (none : h.hashBuckets b = 0) :
    cells (.bucket b) = [] := by
  have chained := linked.lists.chained (.bucket b)
  rw [show h.first (.bucket b) = 0 from none] at chained
  exact chained.eq_nil

/-- A cell moves from the head of a list to that of another. -/
theorem Linked.move {p q : Place} (apart : q ≠ p)
    {c : ℕ} (head : cells p = c :: rest) (room : h.InRange q)
    (first : h'.first = update (update h.first p (h.next c)) q (c + 1))
    (next : h'.next = update h.next c (h.first q)) (index : h'.hashTableIdx = h.hashTableIdx)
    (max : h'.maxHashTableIdx = h.maxHashTableIdx) (range : h'.InRange = h.InRange) :
    Linked h' (movedCells cells p q c rest) where
  lists := by
    rw [first, next]
    exact linked.lists.move apart head
  members d := by rw [mem_move apart head, index]; exact linked.members d
  inRange {r d} mem := by
    rw [range]
    rw [mem_update, mem_update] at mem
    rcases mem with ⟨rfl, _⟩ | ⟨_, ⟨rfl, old⟩ | ⟨_, old⟩⟩
    · exact room
    · exact linked.inRange (head ▸ mem_cons_of_mem _ old)
    · exact linked.inRange old
  bound := by rw [index, max]; exact linked.bound

/-- A free cell becomes a head. -/
theorem Linked.takeFree (room : b < h.buckets) (some : h.freeList l ≠ 0) :
    ∃ rest, cells (.lock l) = (h.freeList l - 1) :: rest ∧
      Linked (h.takeFree b l) (movedCells cells (.lock l) (.bucket b) (h.freeList l - 1) rest) := by
  obtain ⟨rest, head⟩ := linked.lists.exists_cons (p := .lock l) some
  refine ⟨rest, head, linked.move (by simp) head room ?_ ?_ rfl rfl ?_⟩
  · funext p
    cases p <;> simp [first, HashHandle.takeFree, HashHandle.next, update_apply]
  · funext c
    simp only [HashHandle.next, HashHandle.takeFree, first, update_apply]
    split_ifs <;> rfl
  · funext p
    cases p <;> rfl

/-- A head becomes free. -/
theorem Linked.releaseHead {c : ℕ}
    (head : cells (.bucket b) = c :: rest) (room : l < h.lockBuckets) :
    Linked (h.releaseHead b l) (movedCells cells (.bucket b) (.lock l) c rest) := by
  have start : h.hashBuckets b = c + 1 := by
    have chained := linked.lists.chained (.bucket b)
    rw [head] at chained
    exact chained.1
  refine linked.move (by simp) head room ?_ ?_ rfl rfl ?_
  · funext p
    cases p <;> simp [first, HashHandle.releaseHead, HashHandle.next, start, update_apply]
  · funext d
    simp only [HashHandle.next, HashHandle.releaseHead, start, first, update_apply,
      Nat.add_sub_cancel]
    split_ifs <;> rfl
  · funext p
    cases p <;> rfl

/-- A cell that was never used becomes a head. -/
theorem Linked.takeFresh (room : b < h.buckets)
    (left : h.hashTableIdx < h.maxHashTableIdx) : Linked (h.takeFresh b)
      (update cells (.bucket b) (h.hashTableIdx :: cells (.bucket b))) where
  lists := by
    have fresh : ∀ q, h.hashTableIdx ∉ cells q :=
      fun q mem => lt_irrefl _ (mem_chain_lt linked mem)
    have pushed := linked.lists.push (.bucket b) fresh
    have firsts : (h.takeFresh b).first = update h.first (.bucket b) (h.hashTableIdx + 1) := by
      funext p
      cases p <;> simp [first, HashHandle.takeFresh, update_apply]
    have nexts : (h.takeFresh b).next = update h.next h.hashTableIdx (h.first (.bucket b)) := by
      funext c
      simp only [HashHandle.next, HashHandle.takeFresh, first, update_apply]
      split_ifs <;> rfl
    rw [firsts, nexts]
    exact pushed
  members c := by
    constructor
    · rintro ⟨p, mem⟩
      rw [mem_update, mem_cons] at mem
      rcases mem with ⟨_, rfl | old⟩ | ⟨_, old⟩
      · exact Nat.lt_succ_self _
      · exact Nat.lt_succ_of_lt (mem_chain_lt linked old)
      · exact Nat.lt_succ_of_lt (mem_chain_lt linked old)
    · intro below
      rcases Nat.lt_succ_iff_lt_or_eq.mp below with old | rfl
      · obtain ⟨p, mem⟩ := (linked.members c).mpr old
        by_cases same : p = .bucket b
        · subst same
          exact ⟨_, by rw [update_self]; exact mem_cons_of_mem _ mem⟩
        · exact ⟨p, by rwa [update_of_ne same]⟩
      · exact ⟨.bucket b, by rw [update_self]; exact mem_cons_self⟩
  inRange {p c} mem := by
    rw [mem_update] at mem
    rcases mem with ⟨rfl, _⟩ | ⟨_, old⟩
    · exact room
    · exact linked.inRange old
  bound := left

end

end

variable {entries : ℕ → Fin 4 → HashEntry} {c : ℕ} {i : Fin 4} {e : HashEntry}

section

/-- Unused entries are cleared, a chain has holes only in its head and the head is not empty, and
all that is in no chain is unused. -/
structure Filled (entries : ℕ → Fin 4 → HashEntry) (cells : Place → List ℕ) : Prop where
  cleared : ∀ {c i}, (entries c i).used = false → entries c i = {}
  head : ∀ {b c rest}, cells (.bucket b) = c :: rest → ∃ i, (entries c i).used = true
  full : ∀ {b c rest}, cells (.bucket b) = c :: rest → ∀ d ∈ rest, ∀ i, (entries d i).used = true
  unused : ∀ {c}, (∀ b, c ∉ cells (.bucket b)) → ∀ i, (entries c i).used = false

variable {cells cells' : Place → List ℕ} {d : ℕ} {j : Fin 4} {first : Place → ℕ} {next : ℕ → ℕ}

/-- A cell is on one chain. -/
theorem chain_unique (lists : IndexLists first next cells) {b' : ℕ} (mem : c ∈ cells (.bucket b))
    (mem' : c ∈ cells (.bucket b')) : b' = b :=
  Place.bucket.inj (lists.only mem' mem)

section

variable (filled : Filled entries cells)

include filled

theorem Filled.cleared_set (clear : e.used = false → e = {})
    (unused : (set entries c i e d j).used = false) : set entries c i e d j = {} := by
  by_cases same : d = c ∧ j = i
  · rw [same.1, same.2, set_self] at unused ⊢
    exact clear unused
  · rw [set_of_ne same] at unused ⊢
    exact filled.cleared unused

/-- A chain with one more entry. -/
theorem Filled.fill (mem : c ∈ cells (.bucket b))
    (used : e.used = true) : Filled (set entries c i e) cells := by
  have usedStill : ∀ {d j}, (entries d j).used = true →
      (set entries c i e d j).used = true := by
    intro d j before
    by_cases same : d = c ∧ j = i
    · rw [same.1, same.2, set_self, used]
    · rw [set_of_ne same, before]
  refine ⟨filled.cleared_set (by simp [used]), fun chain => ?_, fun chain d mem' j => ?_,
    fun out j => ?_⟩
  · obtain ⟨j, before⟩ := filled.head chain
    exact ⟨j, usedStill before⟩
  · exact usedStill (filled.full chain d mem' j)
  · rw [set_of_ne fun same => out b (by rwa [same.1])]
    exact filled.unused out j

theorem Filled.rechain (clear : e.used = false → e = {})
    (elsewhere : ∀ {b'}, b' ≠ b → cells' (.bucket b') = cells (.bucket b') ∧ c ∉ cells (.bucket b'))
    (chain : ∀ {d rest}, cells' (.bucket b) = d :: rest →
      (∃ j, (set entries c i e d j).used = true) ∧
        ∀ d' ∈ rest, ∀ j, (set entries c i e d' j).used = true)
    (keeps : ∀ {d}, d ≠ c → d ∈ cells (.bucket b) → d ∈ cells' (.bucket b))
    (gone : c ∉ cells' (.bucket b) → ∀ j, (set entries c i e c j).used = false) :
    Filled (set entries c i e) cells' := by
  have others : ∀ {b' d}, b' ≠ b → d ∈ cells (.bucket b') → set entries c i e d = entries d :=
    fun apart mem => set_of_ne_cell fun same => (elsewhere apart).2 (same ▸ mem)
  refine ⟨filled.cleared_set clear, fun {b' d rest} list => ?_, fun {b' d rest} list d' mem j => ?_,
    fun {d} out j => ?_⟩
  · by_cases same : b' = b
    · exact (chain (same ▸ list)).1
    · rw [(elsewhere same).1] at list
      rw [others same (list ▸ mem_cons_self)]
      exact filled.head list
  · by_cases same : b' = b
    · exact (chain (same ▸ list)).2 d' mem j
    · rw [(elsewhere same).1] at list
      rw [others same (list ▸ mem_cons_of_mem _ mem)]
      exact filled.full list d' mem j
  · by_cases here : d = c
    · rw [here] at out ⊢
      exact gone (out b) j
    · rw [set_of_ne_cell here]
      refine filled.unused (fun b' mem => out b' ?_) j
      by_cases same : b' = b
      · subst same
        exact keeps here mem
      · rwa [(elsewhere same).1]

/-- A bucket entry in no chain becomes the head of a full one, and its first entry is filled. -/
theorem Filled.newHead (out : ∀ b, c ∉ cells (.bucket b))
    (before : ∀ d ∈ cells (.bucket b), ∀ i, (entries d i).used = true) (used : e.used = true)
    (here : cells' (.bucket b) = c :: cells (.bucket b))
    (elsewhere : ∀ {b'}, b' ≠ b → cells' (.bucket b') = cells (.bucket b')) :
    Filled (set entries c i e) cells' := by
  refine filled.rechain (by simp [used]) (fun apart => ⟨elsewhere apart, out _⟩)
    (fun {d rest} chain => ?_) (fun _ mem => here ▸ mem_cons_of_mem _ mem)
    fun gone => absurd (here ▸ mem_cons_self) gone
  obtain ⟨rfl, rfl⟩ := cons.inj (here.symm.trans chain)
  refine ⟨⟨i, by rw [set_self, used]⟩, fun d' mem j => ?_⟩
  have other : d' ≠ c := fun same => out b (same ▸ mem)
  rw [set_of_ne_cell other]
  exact before d' mem j

section

variable (lists : IndexLists first next cells) (chain : cells (.bucket b) = c :: rest)

include lists chain

/-- What is behind a head is full, whatever is written to the head. -/
theorem Filled.behind_head : (∀ {b'}, b' ≠ b → c ∉ cells (.bucket b')) ∧
    ∀ d ∈ rest, ∀ j, (set entries c i e d j).used = true := by
  have memC : c ∈ cells (.bucket b) := chain ▸ mem_cons_self
  have distinct := lists.nodup (.bucket b)
  rw [chain, nodup_cons] at distinct
  refine ⟨fun apart mem => apart (chain_unique lists memC mem), fun d mem j => ?_⟩
  have other : d ≠ c := fun same => distinct.1 (same ▸ mem)
  rw [set_of_ne_cell other]
  exact filled.full chain d mem j

/-- The head is not left empty. -/
theorem Filled.clear (left : ∃ j, (set entries c i {} c j).used = true) :
    Filled (set entries c i {}) cells := by
  obtain ⟨out, full⟩ := filled.behind_head lists chain
  refine filled.rechain (fun _ => rfl) (fun apart => ⟨rfl, out apart⟩) (fun {d rest'} chain' => ?_)
    (fun _ => id) fun gone => absurd (chain ▸ mem_cons_self) gone
  obtain ⟨rfl, rfl⟩ := cons.inj (chain.symm.trans chain')
  exact ⟨left, full⟩

/-- The last entry of a head cleared, and the head taken out of the chain. -/
theorem Filled.release (none : ∀ j, (set entries c i {} c j).used = false)
    (here : cells' (.bucket b) = rest)
    (elsewhere : ∀ {b'}, b' ≠ b → cells' (.bucket b') = cells (.bucket b')) :
    Filled (set entries c i {}) cells' := by
  obtain ⟨out, full⟩ := filled.behind_head lists chain
  refine filled.rechain (fun _ => rfl) (fun apart => ⟨elsewhere apart, out apart⟩)
    (fun {d rest'} chain' => ?_) (fun other mem => ?_) fun _ => none
  · rw [here.symm.trans chain'] at full
    exact ⟨⟨0, full d mem_cons_self 0⟩, fun d' mem => full d' (mem_cons_of_mem _ mem)⟩
  · rw [chain, mem_cons] at mem
    exact here ▸ mem.resolve_left other

end

end

end

section

/-- An entry counts if it is used. -/
def HashEntry.asUsed (e : HashEntry) : Multiset HashEntry := if e.used then {e} else 0

open HashEntry

/-- The used entries of some bucket entries. -/
def held (entries : ℕ → Fin 4 → HashEntry) (cells : Finset ℕ) : Multiset HashEntry :=
  total HashEntry.asUsed entries cells

variable {cells : Finset ℕ}

@[simp] theorem asUsed_of_used (used : e.used = true) : e.asUsed = {e} := if_pos used

@[simp] theorem asUsed_of_unused (unused : e.used = false) : e.asUsed = 0 := by
  simp [asUsed, unused]

@[simp] theorem asUsed_cleared : HashEntry.asUsed {} = 0 := rfl

theorem mem_held : e ∈ held entries cells ↔
    ∃ c ∈ cells, ∃ i, (entries c i).used = true ∧ entries c i = e := by
  simp only [held, total, Multiset.mem_sum, Finset.mem_univ, true_and]
  constructor
  · rintro ⟨c, mem, i, inside⟩
    refine ⟨c, mem, i, ?_⟩
    by_cases used : (entries c i).used = true
    · rw [asUsed_of_used used, Multiset.mem_singleton] at inside
      exact ⟨used, inside.symm⟩
    · simp [asUsed, used] at inside
  · rintro ⟨c, mem, i, used, rfl⟩
    exact ⟨c, mem, i, by rw [asUsed_of_used used, Multiset.mem_singleton]⟩

/-- An entry is added. -/
theorem held_fill (mem : c ∈ cells) (unused : (entries c i).used = false) (used : e.used = true) :
    held (set entries c i e) cells = e ::ₘ held entries cells := by
  have : held (set entries c i e) cells + (entries c i).asUsed =
      held entries cells + e.asUsed := total_set mem
  rw [asUsed_of_unused unused, add_zero, asUsed_of_used used] at this
  rw [this, add_comm, Multiset.singleton_add]

/-- An entry is taken away. -/
theorem held_clear (mem : c ∈ cells) (used : (entries c i).used = true) :
    entries c i ::ₘ held (set entries c i {}) cells = held entries cells := by
  have : held (set entries c i {}) cells + (entries c i).asUsed =
      held entries cells + HashEntry.asUsed {} := total_set mem
  rw [asUsed_cleared, add_zero, asUsed_of_used used, add_comm, Multiset.singleton_add] at this
  exact this

theorem held_replace (mem : c ∈ cells) (before : (entries c i).used = true) (used : e.used = true) :
    entries c i ::ₘ held (set entries c i e) cells = e ::ₘ held entries cells := by
  have : held (set entries c i e) cells + (entries c i).asUsed =
      held entries cells + e.asUsed := total_set mem
  rw [asUsed_of_used before, asUsed_of_used used, add_comm,
    add_comm _ ({e} : Multiset HashEntry), Multiset.singleton_add,
    Multiset.singleton_add] at this
  exact this

theorem held_insert (none : ∀ i, (entries c i).used = false) :
    held entries (insert c cells) = held entries cells :=
  total_insert fun i => asUsed_of_unused (none i)

theorem held_set_of_notMem (out : c ∉ cells) :
    held (set entries c i e) cells = held entries cells := total_set_of_notMem out

end

/-- Every entry has an address of its own, at which the address table names an index of the
entry's bucket. -/
structure Addressed (table : Option (ℕ → ℕ)) (addrSize : ℕ) (contents : ℕ → Multiset HashEntry) :
    Prop where
  inTable : ∀ {b e}, e ∈ contents b → e.blkaddress < addrSize
  nodup : ∀ b, ((contents b).map HashEntry.blkaddress).Nodup
  only : ∀ {b b' e e'}, e ∈ contents b → e' ∈ contents b' → e.blkaddress = e'.blkaddress → b = b'
  named : ∀ {t b e}, table = some t → e ∈ contents b → t e.blkaddress / bucketSize = b

variable {table : Option (ℕ → ℕ)} {addrSize : ℕ} {contents : ℕ → Multiset HashEntry} {hashIdx : ℕ}

/-- A write to the address table. -/
abbrev writeAddr (table : Option (ℕ → ℕ)) (blk hashIdx : ℕ) : Option (ℕ → ℕ) :=
  table.map fun t => update t blk (hashIdx % 2 ^ 32)

/-- Where the entries of a bucket come from once one has been added. -/
theorem mem_of_mem_added {b' : ℕ} {e' : HashEntry}
    (mem : e' ∈ update contents b (e ::ₘ contents b) b') :
    (e' = e ∧ b' = b) ∨ e' ∈ contents b' := by
  by_cases same : b' = b
  · subst same
    rw [update_self, Multiset.mem_cons] at mem
    exact mem.imp_left fun new => ⟨new, rfl⟩
  · rw [update_of_ne same] at mem
    exact .inr mem

variable (addressed : Addressed table addrSize contents)

include addressed

/-- The address of an entry may be written again, with an index of the entry's bucket. -/
theorem Addressed.rewrite (mem : e ∈ contents b)
    (small : hashIdx < 2 ^ 32) (ofBucket : table.isSome → hashIdx / bucketSize = b) :
    Addressed (writeAddr table e.blkaddress hashIdx) addrSize contents where
  __ := addressed
  named {t b' e'} written mem' := by
    obtain ⟨t', found, rfl⟩ := map_eq_some_iff.mp written
    by_cases same : e'.blkaddress = e.blkaddress
    · rw [same, update_self, Nat.mod_eq_of_lt small, ofBucket (by rw [found]; rfl)]
      exact addressed.only mem mem' same.symm
    · rw [update_of_ne same]
      exact addressed.named found mem'

/-- The address of a new entry is entered. -/
theorem Addressed.insert (inTable : e.blkaddress < addrSize)
    (fresh : ∀ b, ∀ e' ∈ contents b, e'.blkaddress ≠ e.blkaddress)
    (small : hashIdx < 2 ^ 32) (ofBucket : table.isSome → hashIdx / bucketSize = b) :
    Addressed (writeAddr table e.blkaddress hashIdx) addrSize
      (update contents b (e ::ₘ contents b)) := by
  have origin := @mem_of_mem_added b e contents
  refine ⟨fun mem => ?_, fun b' => ?_, fun mem mem' same => ?_, fun {t b' e'} written mem => ?_⟩
  · rcases origin mem with ⟨rfl, _⟩ | old
    · exact inTable
    · exact addressed.inTable old
  · by_cases same : b' = b
    · subst same
      rw [update_self, Multiset.map_cons, Multiset.nodup_cons]
      refine ⟨fun used => ?_, addressed.nodup b'⟩
      obtain ⟨e', mem, blk⟩ := Multiset.mem_map.mp used
      exact fresh b' e' mem blk
    · rw [update_of_ne same]
      exact addressed.nodup b'
  · rcases origin mem with ⟨rfl, rfl⟩ | old <;> rcases origin mem' with ⟨rfl, rfl⟩ | old'
    · rfl
    · exact (fresh _ _ old' same.symm).elim
    · exact (fresh _ _ old same).elim
    · exact addressed.only old old' same
  · obtain ⟨t', found, rfl⟩ := map_eq_some_iff.mp written
    rcases origin mem with ⟨rfl, rfl⟩ | old
    · rw [update_self, Nat.mod_eq_of_lt small, ofBucket (by rw [found]; rfl)]
    · rw [update_of_ne (fresh _ _ old)]
      exact addressed.named found old

theorem Addressed.mono {contents' : ℕ → Multiset HashEntry} (fewer : ∀ b, contents' b ≤ contents b) :
    Addressed table addrSize contents' where
  inTable {b _} mem := addressed.inTable (Multiset.mem_of_le (fewer b) mem)
  nodup b := Multiset.nodup_of_le (Multiset.map_le_map (fewer b)) (addressed.nodup b)
  only {b b' _ _} mem mem' :=
    addressed.only (Multiset.mem_of_le (fewer b) mem) (Multiset.mem_of_le (fewer b') mem')
  named {_ b _} found mem := addressed.named found (Multiset.mem_of_le (fewer b) mem)

/-- An entry gone, and its address cleared. -/
theorem Addressed.erase (mem : e ∈ contents b) : Addressed (writeAddr table e.blkaddress 0) addrSize
      (update contents b ((contents b).erase e)) := by
  have fewer : update contents b ((contents b).erase e) ≤ contents :=
    update_le_self_iff.mpr (Multiset.erase_le e _)
  refine { addressed.mono fewer with named := fun {t b' e'} written inside => ?_ }
  have before := Multiset.mem_of_le (fewer b') inside
  obtain ⟨t', found, rfl⟩ := map_eq_some_iff.mp written
  have apart : e'.blkaddress ≠ e.blkaddress := by
    intro same
    obtain rfl := addressed.only before mem same
    -- a second entry of the bucket at the address would be there twice
    have distinct := addressed.nodup b'
    rw [← Multiset.cons_erase mem, Multiset.map_cons, Multiset.nodup_cons] at distinct
    rw [update_self] at inside
    exact distinct.1 (same ▸ Multiset.mem_map_of_mem _ inside)
  rw [update_of_ne apart]
  exact addressed.named found before

end Zetascale.Flash
