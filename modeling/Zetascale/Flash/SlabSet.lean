import Zetascale.Flash.HashRuns
import Zetascale.Flash.Trx

/-!
# What puts and deletes do

A shard is described by the entries in each bucket of its hash table and the
bits of its slabs. `Change` says what a put or delete does to them and which
record it logs; `slabSet_outcome` says that this is all that `mcd_fth_osd_slab_set`
can do, and that lookups stay right.
-/

namespace Zetascale.Flash

open Function HashHandle List Option Table

universe u

variable {K : Type u} {contents : ℕ → Multiset HashEntry} {cells : Place → List ℕ} {h : HashHandle}

/-- A chain is searched to its end. -/
theorem find_spec (wanted : HashEntry → Bool) {start fuel : ℕ} {chain : List ℕ}
    (chained : Chained h.next start chain) (enough : chain.length ≤ fuel) :
    (∃ he, h.find wanted fuel start = some he ∧ he.bucketEntry ∈ chain ∧
        (h.entry he).used = true ∧ wanted (h.entry he) = true) ∨ (h.find wanted fuel start = none ∧
        ∀ c ∈ chain, ∀ i, (h.entries c i).used = true → wanted (h.entries c i) = false) := by
  induction chain generalizing start fuel with
  | nil =>
    subst chained
    refine .inr ⟨?_, nofun⟩
    cases fuel <;> rfl
  | cons c rest ih =>
    obtain ⟨rfl, onward⟩ := chained
    cases fuel with
    | zero => cases enough
    | succ fuel =>
      rw [find, if_neg (Nat.succ_ne_zero c), Nat.add_sub_cancel]
      cases here : (finRange 4).find? fun i =>
          (h.entry ⟨c, i⟩).used && wanted (h.entry ⟨c, i⟩) with
      | some i =>
        have both := find?_some here
        rw [Bool.and_eq_true] at both
        exact .inl ⟨⟨c, i⟩, rfl, mem_cons_self, both.1, both.2⟩
      | none =>
        have notHere : ∀ i, (h.entries c i).used = true → wanted (h.entries c i) = false := by
          intro i used
          have out := find?_eq_none.mp here i (mem_finRange i)
          rw [Bool.and_eq_true, not_and, Bool.not_eq_true] at out
          exact out used
        rcases ih onward (Nat.le_of_succ_le_succ enough) with
          ⟨he, found, mem, used, isWanted⟩ | ⟨nothing, out⟩
        · exact .inl ⟨he, found, mem_cons_of_mem _ mem, used, isWanted⟩
        · exact .inr ⟨nothing, forall_mem_cons.mpr ⟨notHere, out⟩⟩

/-- A bucket is searched. -/
theorem Inv.findAt_spec (inv : Inv ⟨h, contents⟩ cells) (wanted : HashEntry → Bool) (hashIdx : ℕ) :
    (∃ he, h.findAt wanted hashIdx = some he ∧
        he.bucketEntry ∈ cells (.bucket (hashIdx / bucketSize)) ∧ (h.entry he).used = true ∧
        wanted (h.entry he) = true ∧ h.entry he ∈ contents (hashIdx / bucketSize)) ∨
      (h.findAt wanted hashIdx = none ∧
        ∀ e ∈ contents (hashIdx / bucketSize), wanted e = false) := by
  have holds : ∀ b, held h.entries (cells (.bucket b)).toFinset = contents b := inv.contents
  rcases find_spec wanted (inv.linked.lists.chained (.bucket (hashIdx / bucketSize)))
      (Nat.le_succ_of_le (inv.linked.length_le _)) with
    ⟨he, found, mem, used, isWanted⟩ | ⟨nothing, out⟩
  · refine .inl ⟨he, found, mem, used, isWanted, ?_⟩
    rw [← holds]
    exact mem_held.mpr ⟨_, mem_toFinset.mpr mem, _, used, rfl⟩
  · refine .inr ⟨nothing, fun e mem => ?_⟩
    rw [← holds] at mem
    obtain ⟨c, inChain, i, used, rfl⟩ := mem_held.mp mem
    exact out c (mem_toFinset.mp inChain) i used

variable {hashb : K → ℕ} {contents' : ℕ → Multiset HashEntry}

section

/-- Every entry is for an object in an allocated slab, in the bucket of the object's key, and there
is one entry for a key. -/
structure Keyed (hashb : K → ℕ) (size : ℕ) (bitmap : ℕ → Bool) (keyAt : ℕ → Option K)
    (contents : ℕ → Multiset HashEntry) : Prop where
  allocated : ∀ {b e}, e ∈ contents b → bitmap e.blkaddress = true
  keyed : ∀ {b e}, e ∈ contents b → ∃ key, keyAt e.blkaddress = some key ∧
    hashck hashb key e.cntrId % size / bucketSize = b ∧
    e.hesyndrome = hashck hashb key e.cntrId / 2 ^ 48
  unique : ∀ {b e e'}, e ∈ contents b → e' ∈ contents b → e.cntrId = e'.cntrId →
    keyAt e.blkaddress = keyAt e'.blkaddress → e = e'

variable {size : ℕ} {bitmap bitmap' : ℕ → Bool} {keyAt keyAt' : ℕ → Option K}

section

variable (keyed : Keyed hashb size bitmap keyAt contents)

include keyed

theorem Keyed.mono
    (fewer : ∀ b, contents' b ≤ contents b) : Keyed hashb size bitmap keyAt contents' where
  allocated {b _} mem := keyed.allocated (Multiset.mem_of_le (fewer b) mem)
  keyed {b _} mem := keyed.keyed (Multiset.mem_of_le (fewer b) mem)
  unique {b _ _} mem mem' :=
    keyed.unique (Multiset.mem_of_le (fewer b) mem) (Multiset.mem_of_le (fewer b) mem')

/-- What is written to slabs that are free does not matter. -/
theorem Keyed.congr (more : ∀ blk, bitmap blk = true → bitmap' blk = true)
    (same : ∀ blk, bitmap blk = true → keyAt' blk = keyAt blk) :
    Keyed hashb size bitmap' keyAt' contents where
  allocated mem := more _ (keyed.allocated mem)
  keyed mem := by
    rw [same _ (keyed.allocated mem)]
    exact keyed.keyed mem
  unique mem mem' sameCntr sameKey := by
    rw [same _ (keyed.allocated mem), same _ (keyed.allocated mem')] at sameKey
    exact keyed.unique mem mem' sameCntr sameKey

/-- A key gets its first entry. -/
theorem Keyed.added (e : HashEntry) (key : K) (free : bitmap e.blkaddress = false)
    (syndrome : e.hesyndrome = hashck hashb key e.cntrId / 2 ^ 48)
    (none : ∀ e' ∈ contents (hashck hashb key e.cntrId % size / bucketSize),
      e'.cntrId = e.cntrId → keyAt e'.blkaddress ≠ some key) :
    Keyed hashb size (update bitmap e.blkaddress true) (update keyAt e.blkaddress (some key))
      (Table.added contents (hashck hashb key e.cntrId % size / bucketSize) e) := by
  have apart : ∀ {blk}, bitmap blk = true → blk ≠ e.blkaddress := by
    rintro blk allocated rfl
    cases free.symm.trans allocated
  have before : Keyed hashb size (update bitmap e.blkaddress true)
      (update keyAt e.blkaddress (some key)) contents :=
    keyed.congr (fun blk allocated => by rwa [update_of_ne (apart allocated)])
      fun blk allocated => update_of_ne (apart allocated) _ _
  have origin := @mem_of_mem_added (hashck hashb key e.cntrId % size / bucketSize) e contents
  -- an entry of the bucket for the same container has another key
  have other : ∀ {e'}, e' ∈ contents (hashck hashb key e.cntrId % size / bucketSize) →
      e'.cntrId = e.cntrId → update keyAt e.blkaddress (some key) e'.blkaddress ≠
        update keyAt e.blkaddress (some key) e.blkaddress := by
    intro e' mem sameCntr
    rw [update_self, update_of_ne (apart (keyed.allocated mem))]
    exact none e' mem sameCntr
  refine ⟨fun mem => ?_, fun mem => ?_, fun mem mem' sameCntr sameKey => ?_⟩
  · rcases origin mem with ⟨rfl, _⟩ | old
    · exact update_self ..
    · exact before.allocated old
  · rcases origin mem with ⟨rfl, rfl⟩ | old
    · exact ⟨key, update_self .., rfl, syndrome⟩
    · exact before.keyed old
  · rcases origin mem with ⟨rfl, rfl⟩ | old <;> rcases origin mem' with ⟨rfl, here⟩ | old'
    · rfl
    · exact (other old' sameCntr.symm sameKey.symm).elim
    · exact (other (here ▸ old) sameCntr sameKey).elim
    · exact before.unique old old' sameCntr sameKey

end

end

variable [DecidableEq K] {s s' : Shard K} {cells' : Place → List ℕ} {e : HashEntry}

section

/-- A shard with these entries in its hash table. Hash indexes are `uint32_t`, block addresses have
48 bits. -/
structure Shard.WellFormed (hashb : K → ℕ) (s : Shard K) (contents : ℕ → Multiset HashEntry)
    (cells : Place → List ℕ) : Prop where
  inv : Inv ⟨s.handle, contents⟩ cells
  pos : 0 < s.handle.hashSize
  small : s.handle.hashSize ≤ 2 ^ 32
  addrs : s.handle.addrSize < 2 ^ 48
  keys : Keyed hashb s.handle.hashSize s.bitmap s.keyAt contents

open Shard

variable {key : K} {cntrId : ℕ}

/-- The bucket of a key. -/
abbrev Shard.bucketOf (hashb : K → ℕ) (s : Shard K) (key : K) (cntrId : ℕ) : ℕ :=
  hashck hashb key cntrId % s.handle.hashSize / bucketSize

theorem isKey_iff : s.isKey hashb key cntrId e = true ↔ e.cntrId = cntrId ∧
    e.hesyndrome = hashck hashb key cntrId / 2 ^ 48 ∧ s.keyAt e.blkaddress = some key := by
  simp [isKey, and_assoc]

/-- An entry of a key's bucket is the key's, if container and key on flash say so. -/
theorem Keyed.isKey (keyed : Keyed hashb s.handle.hashSize s.bitmap s.keyAt contents) {b : ℕ}
    (mem : e ∈ contents b) (sameCntr : e.cntrId = cntrId)
    (sameKey : s.keyAt e.blkaddress = some key) : s.isKey hashb key cntrId e = true := by
  obtain ⟨key', onFlash, _, syndrome⟩ := keyed.keyed mem
  cases onFlash.symm.trans sameKey
  exact isKey_iff.mpr ⟨sameCntr, sameCntr ▸ syndrome, sameKey⟩

/-- A lookup finds the entry of the key. -/
theorem Shard.WellFormed.lookup_iff (wf : s.WellFormed hashb contents cells) (valid : cntrId ≠ 0) :
    s.lookup hashb key cntrId = some e ↔
      e ∈ contents (s.bucketOf hashb key cntrId) ∧ s.isKey hashb key cntrId e = true := by
  rw [lookup, hashTableGet, if_neg valid]
  rcases wf.inv.findAt_spec (s.isKey hashb key cntrId)
      (hashck hashb key cntrId % s.handle.hashSize) with
    ⟨he, found, _, _, isKey, mem⟩ | ⟨nothing, out⟩
  · rw [found, map_some, some.injEq]
    constructor
    · rintro rfl
      exact ⟨mem, isKey⟩
    · rintro ⟨mem', isKey'⟩
      obtain ⟨cntr, _, onFlash⟩ := isKey_iff.mp isKey
      obtain ⟨cntr', _, onFlash'⟩ := isKey_iff.mp isKey'
      exact wf.keys.unique mem mem' (cntr.trans cntr'.symm) (onFlash.trans onFlash'.symm)
  · rw [nothing, map_none]
    refine ⟨nofun, fun ⟨mem, isKey⟩ => ?_⟩
    cases (out e mem).symm.trans isKey

/-- Lookups only depend on the entries, and on what slabs that are allocated hold. -/
theorem Shard.WellFormed.lookup_eq (wf : s.WellFormed hashb contents cells)
    (wf' : s'.WellFormed hashb contents cells') (sizes : s'.handle.hashSize = s.handle.hashSize)
    (same : ∀ blk, s.bitmap blk = true → s'.keyAt blk = s.keyAt blk) :
    s'.lookup hashb key cntrId = s.lookup hashb key cntrId := by
  by_cases none : cntrId = 0
  · simp [lookup, hashTableGet, none]
  · refine ext fun e => ?_
    rw [wf'.lookup_iff none, wf.lookup_iff none, bucketOf, sizes]
    refine and_congr_right fun mem => ?_
    rw [isKey_iff, isKey_iff, same _ (wf.keys.allocated mem)]

end

section

/-- What a put or delete may ask: the slab it was given is free. -/
def Request.Legal (s : Shard K) (req : Request K) : Prop :=
  req.cntrId ≠ 0 ∧ ∀ payload, req.payload = some payload → 0 < payload.blocks ∧
    ∀ blk, payload.blkOffset = some blk → blk < s.handle.addrSize ∧ s.bitmap blk = false

/-- An entry of a bucket that could be put back, were it taken out. -/
structure Removable (addrSize : ℕ) (buckets : ℕ → Multiset HashEntry) (b : ℕ) (e : HashEntry) :
    Prop where
  mem : e ∈ buckets b
  used : e.used = true
  inTable : e.blkaddress < addrSize
  fresh : ∀ b', ∀ e' ∈ Table.taken buckets b e b', e'.blkaddress ≠ e.blkaddress

/-- The entries in the buckets and the bits of the slabs. -/
structure Contents where
  buckets : ℕ → Multiset HashEntry
  bitmap : ℕ → Bool

/-- What a logged put or delete does, and what its record says. -/
inductive Change (size addrSize : ℕ) : Contents → TrxRec → Contents → Prop
  | create {a : Contents} {r : TrxRec} {e : HashEntry} (put : r.lr.blocks ≠ 0)
      (offset : r.lr.mloBlkOffset = e.blkaddress) (old : r.lr.mloOldOffset = 0)
      (free : a.bitmap e.blkaddress = false) :
      Change size addrSize a r ⟨Table.added a.buckets (r.syn % size / bucketSize) e,
        update a.bitmap e.blkaddress true⟩
  | overwrite {a : Contents} {r : TrxRec} {e : HashEntry} (put : r.lr.blocks ≠ 0)
      (offset : r.lr.mloBlkOffset = e.blkaddress) (old : r.lr.mloOldOffset ≠ 0)
      (removable : Removable addrSize a.buckets (r.syn % size / bucketSize) r.e)
      (free : a.bitmap e.blkaddress = false) :
      Change size addrSize a r
        ⟨Table.added (Table.taken a.buckets (r.syn % size / bucketSize) r.e)
          (r.syn % size / bucketSize) e, update a.bitmap e.blkaddress true⟩
  | delete {a : Contents} {r : TrxRec} (delete : r.lr.blocks = 0)
      (removable : Removable addrSize a.buckets (r.syn % size / bucketSize) r.e) :
      Change size addrSize a r ⟨Table.taken a.buckets (r.syn % size / bucketSize) r.e, a.bitmap⟩

variable {req : Request K} {blk : ℕ}

/-- What a call can leave behind: nothing but data in a slab that is free, or a logged change. The
bucket entries handed out and those that undoing takes are as many as the calls. -/
inductive Outcome (hashb : K → ℕ) (s : Shard K) (contents : ℕ → Multiset HashEntry)
    (cells : Place → List ℕ) : SetResult K → Prop
  | silent {result : SetResult K} : result.logged = none → result.shard.handle = s.handle →
      result.shard.bitmap = s.bitmap → Outcome hashb s contents cells result
  | logged {result : SetResult K} {r : TrxRec} {contents' : ℕ → Multiset HashEntry}
      {cells' : Place → List ℕ} : result.logged = some r →
      Change s.handle.hashSize s.handle.addrSize ⟨contents, s.bitmap⟩ r ⟨contents', result.shard.bitmap⟩ →
      result.shard.WellFormed hashb contents' cells' →
      SameSizes s.handle result.shard.handle →
      (result.shard.handle.hashTableIdx + if r.lr.blocks = 0 then 1 else 0) ≤
        s.handle.hashTableIdx + 1 →
      Outcome hashb s contents cells result

omit [DecidableEq K] in
theorem Shard.WellFormed.free (wf : s.WellFormed hashb contents cells)
    (inTable : blk < s.handle.addrSize) (free : s.bitmap blk = false) :
    Table.Free ⟨s.handle, contents⟩ blk := by
  refine ⟨inTable, fun b e mem same => ?_⟩
  cases free.symm.trans (same ▸ wf.keys.allocated mem)

section

variable (wf : s.WellFormed hashb contents cells)

include wf

omit [DecidableEq K] in
/-- The entries change, and what the shard is made of stays. -/
theorem Shard.WellFormed.next
    (inv : Inv ⟨s'.handle, contents'⟩ cells') (sizes : SameSizes s.handle s'.handle)
    (keys : Keyed hashb s.handle.hashSize s'.bitmap s'.keyAt contents') :
    s'.WellFormed hashb contents' cells' where
  inv := inv
  pos := sizes.size ▸ wf.pos
  small := sizes.size ▸ wf.small
  addrs := sizes.addrs ▸ wf.addrs
  keys := sizes.size ▸ keys

omit [DecidableEq K] in
theorem Shard.WellFormed.notMem_taken {b : ℕ} : e ∉ Table.taken contents b e b := by
  rw [taken, update_self]
  exact (Multiset.Nodup.of_map _ (wf.inv.addressed.nodup b)).notMem_erase

omit [DecidableEq K] in
theorem Shard.WellFormed.removable {b : ℕ}
    (mem : e ∈ contents b) : Removable s.handle.addrSize contents b e where
  mem := mem
  used := by
    have holds : held s.handle.entries (cells (.bucket b)).toFinset = contents b :=
      wf.inv.contents b
    rw [← holds] at mem
    obtain ⟨c, _, i, used, rfl⟩ := mem_held.mp mem
    exact used
  inTable := wf.inv.addressed.inTable mem
  fresh b' e' mem' same := by
    have before : e' ∈ contents b' := Multiset.mem_of_le (taken_le _ _ _ _) mem'
    obtain rfl := wf.inv.addressed.only before mem same
    obtain rfl := Multiset.inj_on_of_nodup_map (wf.inv.addressed.nodup b') e' before e mem same
    exact wf.notMem_taken mem'

variable {payload : Payload}

/-- A put on an object. -/
theorem slabPut_overwrites (positive : 0 < payload.blocks)
    (inTable : blk < s.handle.addrSize) (free : s.bitmap blk = false) {he : EntryPtr}
    (inChain : he.bucketEntry ∈ cells (.bucket (s.bucketOf hashb req.key req.cntrId)))
    (used : (s.handle.entry he).used = true)
    (mem : s.handle.entry he ∈ contents (s.bucketOf hashb req.key req.cntrId))
    (isKey : s.isKey hashb req.key req.cntrId (s.handle.entry he) = true) :
    ∃ result, slabPut s req (hashck hashb req.key req.cntrId) payload blk (some he) = some result ∧
      Outcome hashb s contents cells result ∧ result.shard.keyAt = update s.keyAt blk req.key := by
  obtain ⟨cntr, _, onFlash⟩ := isKey_iff.mp isKey
  have fresh := wf.free inTable free
  have below := Nat.mod_lt (hashck hashb req.key req.cntrId) wf.pos
  obtain ⟨h', filled, inv', sizes, index⟩ := wf.inv.replace
    (e := newEntry (hashck hashb req.key req.cntrId) req.cntrId blk payload) inChain used rfl
    ⟨inTable, fun b e mem => fresh.2 b e (Multiset.mem_of_le (taken_le _ _ _ b) mem)⟩
    (below.trans_le wf.small) fun _ => rfl
  refine ⟨_, by rw [slabPut, filled, map_some], ?_, rfl⟩
  have old : Recovery.complement48 (s.handle.entry he).blkaddress ≠ 0 := by
    have inTable' : (s.handle.entry he).blkaddress < s.handle.addrSize :=
      wf.inv.addressed.inTable mem
    have := wf.addrs
    unfold Recovery.complement48
    omega
  have keys := (wf.keys.mono (taken_le contents _ _)).added
    (newEntry (hashck hashb req.key req.cntrId) req.cntrId blk payload) req.key free rfl
    fun e' mem' sameCntr sameKey => by
      have same : e' = s.handle.entry he := wf.keys.unique
        (Multiset.mem_of_le (taken_le _ _ _ _) mem') mem (sameCntr.trans cntr.symm)
        (sameKey.trans onFlash.symm)
      exact wf.notMem_taken (same ▸ mem')
  refine .logged rfl (.overwrite (ne_of_gt positive) rfl old (wf.removable mem) free)
    (wf.next inv' sizes keys) sizes ?_
  exact (congrArg (h'.hashTableIdx + ·) (if_neg (ne_of_gt positive))).trans_le
    (index.le.trans (Nat.le_succ _))

/-- A new object is put, or there is no room for its entry and the slab is freed again. -/
theorem slabPut_creates (covers : Covers s.handle)
    (positive : 0 < payload.blocks) (inTable : blk < s.handle.addrSize)
    (free : s.bitmap blk = false) (noEntry : ∀ e ∈ contents (s.bucketOf hashb req.key req.cntrId),
      s.isKey hashb req.key req.cntrId e = false) :
    ∃ result, slabPut s req (hashck hashb req.key req.cntrId) payload blk none = some result ∧
      Outcome hashb s contents cells result ∧ result.shard.keyAt = update s.keyAt blk req.key := by
  rcases wf.inv.insertEntry (e := newEntry (hashck hashb req.key req.cntrId) req.cntrId blk payload)
      covers payload.isset (hashck hashb req.key req.cntrId) rfl (wf.free inTable free) with
    ⟨full, _⟩ | ⟨h', cells', inserted, inv', sizes, index⟩
  · refine ⟨⟨{ (s.written blk req.key).dealloc blk with handle := s.handle }, .enospc, none⟩,
      by rw [slabPut, full, map_some]; rfl, .silent rfl rfl ?_, rfl⟩
    rw [Shard.dealloc, Shard.written, update_idem, ← free, update_eq_self]
  · have keys := wf.keys.added (newEntry (hashck hashb req.key req.cntrId) req.cntrId blk payload)
      req.key free rfl fun e' mem sameCntr sameKey => by
        cases (noEntry e' mem).symm.trans (wf.keys.isKey mem sameCntr sameKey)
    refine ⟨⟨{ s.written blk req.key with handle := h' }, .eok, some (putRec s.handle
      (hashck hashb req.key req.cntrId) req
      (newEntry (hashck hashb req.key req.cntrId) req.cntrId blk payload) none)⟩,
      by rw [slabPut, inserted, map_some]; rfl, ?_, rfl⟩
    refine .logged rfl (.create (ne_of_gt positive) rfl rfl free) (wf.next inv' sizes keys) sizes ?_
    exact (congrArg (h'.hashTableIdx + ·) (if_neg (ne_of_gt positive))).trans_le index

omit [DecidableEq K] in
/-- A delete on an object. -/
theorem hashEntryDelete_outcome {he : EntryPtr}
    (room : s.bucketOf hashb req.key req.cntrId < s.handle.buckets)
    (inChain : he.bucketEntry ∈ cells (.bucket (s.bucketOf hashb req.key req.cntrId)))
    (used : (s.handle.entry he).used = true) {h' : HashHandle}
    (deleted : hashEntryDelete s.handle he
      (hashck hashb req.key req.cntrId % s.handle.hashSize) = some h') :
    ∃ cells', Shard.WellFormed hashb { s with handle := h' }
        (Table.taken contents (s.bucketOf hashb req.key req.cntrId) (s.handle.entry he)) cells' ∧
      SameSizes s.handle h' ∧ h'.hashTableIdx = s.handle.hashTableIdx := by
  have below := Nat.mod_lt (hashck hashb req.key req.cntrId) wf.pos
  rcases wf.inv.hashEntryDelete (below.trans_le wf.small) room used inChain with
    ⟨_, fault⟩ | ⟨h'', cells', deleted', inv', sizes, index⟩
  · cases fault.symm.trans deleted
  · cases deleted'.symm.trans deleted
    exact ⟨cells', wf.next inv' sizes (wf.keys.mono (taken_le contents _ _)), sizes, index⟩

/-- Every call returns with an outcome, where the locks cover the hash indexes. -/
theorem slabSet_outcome (covers : Covers s.handle) (legal : req.Legal s) :
    ∃ result, slabSet hashb s req = some result ∧ Outcome hashb s contents cells result ∧
      ∀ blk, s.bitmap blk = true → result.shard.keyAt blk = s.keyAt blk := by
  have below := Nat.mod_lt (hashck hashb req.key req.cntrId) wf.pos
  have room : s.bucketOf hashb req.key req.cntrId < s.handle.buckets := covers.bucket_lt below
  have silent : ∀ rc, ∃ result, some (⟨s, rc, none⟩ : SetResult K) = some result ∧
      Outcome hashb s contents cells result ∧
      ∀ blk, s.bitmap blk = true → result.shard.keyAt blk = s.keyAt blk :=
    fun rc => ⟨_, rfl, .silent rfl rfl rfl, fun _ _ => rfl⟩
  -- a free slab is not an allocated one
  have elsewhere : ∀ {blk}, s.bitmap blk = false → ∀ blk', s.bitmap blk' = true →
      update s.keyAt blk req.key blk' = s.keyAt blk' := by
    intro blk free blk' allocated
    refine update_of_ne (fun same => ?_) _ _
    cases free.symm.trans (same ▸ allocated)
  rcases wf.inv.findAt_spec (s.isKey hashb req.key req.cntrId)
      (hashck hashb req.key req.cntrId % s.handle.hashSize) with
    ⟨he, found, inChain, used, isKey, mem⟩ | ⟨nothing, out⟩
  · have get : hashTableGet hashb s req.key req.cntrId = some he := by
      rw [hashTableGet, if_neg legal.1, found]
    simp only [slabSet, if_neg (not_le.mpr room), get]
    cases payload? : req.payload with
    | none =>
      split_ifs
      · exact silent _
      · rcases wf.inv.hashEntryDelete (below.trans_le wf.small) room used inChain with
          ⟨past, _⟩ | ⟨h', _, deleted, _⟩
        · exact (not_lt.mpr past (covers.lock_lt below)).elim
        · obtain ⟨cells', wf', sizes, index⟩ :=
            hashEntryDelete_outcome wf room inChain used deleted
          refine ⟨⟨{ s with handle := h' }, .eok, some (deleteRec s.handle
            (hashck hashb req.key req.cntrId) req (s.handle.entry he))⟩,
            by simp only [deleted, map_some], ?_, fun _ _ => rfl⟩
          exact .logged rfl (.delete rfl (wf.removable mem)) wf' sizes (congrArg (· + 1) index).le
    | some payload =>
      obtain ⟨positive, slab⟩ := legal.2 payload payload?
      simp only [isNone_some, Bool.false_eq_true, false_and, if_false, isSome_some, true_and]
      split_ifs
      · exact silent _
      · exact silent _
      · cases alloc : payload.blkOffset with
        | none => exact silent _
        | some blk =>
          obtain ⟨inTable, free⟩ := slab blk alloc
          obtain ⟨result, returned, outcome, keyAt⟩ :=
            slabPut_overwrites wf positive inTable free inChain used mem isKey
          exact ⟨result, returned, outcome, fun blk' => keyAt ▸ elsewhere free blk'⟩
  · have get : hashTableGet hashb s req.key req.cntrId = none := by
      rw [hashTableGet, if_neg legal.1, nothing]
    simp only [slabSet, if_neg (not_le.mpr room), get]
    cases payload? : req.payload with
    | none => exact silent _
    | some payload =>
      obtain ⟨positive, slab⟩ := legal.2 payload payload?
      simp only [isNone_none, true_and, isSome_none, Bool.false_eq_true, false_and, if_false]
      split_ifs
      · exact silent _
      · exact silent _
      · cases alloc : payload.blkOffset with
        | none => exact silent _
        | some blk =>
          obtain ⟨inTable, free⟩ := slab blk alloc
          obtain ⟨result, returned, outcome, keyAt⟩ :=
            slabPut_creates wf covers positive inTable free out
          exact ⟨result, returned, outcome, fun blk' => keyAt ▸ elsewhere free blk'⟩

end

end

/-- An empty shard. -/
def Shard.init (params : InitParams) : Shard K where
  handle := hashTableInit params
  bitmap := fun _ => false
  keyAt := fun _ => none

variable {params : InitParams}

theorem findAt_oneEntry {hashIdx : ℕ} {wanted : HashEntry → Bool}
    (index : h.hashTableIdx = 0) (used : e.used = true) (isWanted : wanted e = true) :
    (oneEntry h hashIdx e).findAt wanted hashIdx = some ⟨0, 0⟩ := by
  have start : (oneEntry h hashIdx e).hashBuckets (hashIdx / bucketSize) = 1 := by
    simp [oneEntry, setAddr, setEntry, counted, takeFresh, index]
  have only : (oneEntry h hashIdx e).entry ⟨0, 0⟩ = e := by
    simp [oneEntry, setAddr, setEntry, entry]
  have slots : finRange 4 = 0 :: [1, 2, 3] := by decide
  rw [findAt, start, find, if_neg one_ne_zero, Nat.sub_self, slots, find?_cons_of_pos]
  rw [only, used, isWanted]
  rfl

/-- A put of a new object. -/
def firstPut : Request ℕ :=
  { key := 0, cntrId := 1, payload := some ⟨1, some 0, false, false, fun _ => false⟩ }

/-- Its entry. -/
abbrev firstEntry (syndrome : ℕ) : HashEntry :=
  newEntry syndrome 1 0 ⟨1, some 0, false, false, fun _ => false⟩

/-- The put is out of bounds, or leaves the one entry and its record. -/
theorem slabSet_firstPut {hashb : ℕ → ℕ} (small : (hashTableInit params).hashSize ≤ 2 ^ 32)
    (below : hashck hashb 0 1 < (hashTableInit params).hashSize)
    (blocks : 0 < (hashTableInit params).addrSize) : slabSet hashb (Shard.init params) firstPut =
      if (hashTableInit params).buckets ≤ hashck hashb 0 1 / bucketSize ∨
          (hashTableInit params).mapBits ≤ hashck hashb 0 1 / (hashTableInit params).lockBktsize then
        none
      else some ⟨{ (Shard.init params).written 0 0 with
            handle := oneEntry (hashTableInit params) (hashck hashb 0 1)
              (firstEntry (hashck hashb 0 1)) }, .eok,
          some (putRec (hashTableInit params) (hashck hashb 0 1) firstPut
            (firstEntry (hashck hashb 0 1)) none)⟩ := by
  have inserted := insertEntry_first (e := firstEntry (hashck hashb 0 1)) below rfl
    (maxHashTableIdx_init_pos small) (fun _ => rfl) blocks
  change (if (hashTableInit params).buckets ≤
    hashck hashb 0 1 % (hashTableInit params).hashSize / bucketSize then none else _) = _
  rw [Nat.mod_eq_of_lt below]
  by_cases room : (hashTableInit params).buckets ≤ hashck hashb 0 1 / bucketSize
  · rw [if_pos room, if_pos (.inl room)]
  · rw [if_neg room]
    refine (congrArg (Option.map _) inserted).trans ?_
    split_ifs <;> rfl

/-- The shards before the put. -/
def emptyStore (params : InitParams) : Store ℕ := ⟨fun _ => Shard.init params, {}⟩

theorem firstPut_legal {s : Shard ℕ} (blocks : 0 < s.handle.addrSize) (free : s.bitmap 0 = false) :
    firstPut.Legal s := by
  refine ⟨one_ne_zero, fun payload some => ?_⟩
  cases some
  exact ⟨one_pos, fun blk slab => by cases slab; exact ⟨blocks, free⟩⟩

/-- A shard of 16 blocks: 256 hash indexes, 16 locks of 16 indexes each. -/
def smallShard : InitParams where
  totalSize := 16 * 512
  maxNobjs := 0
  blkSize := 512
  segmentBlks := 16
  stormMode := false
  blkSize_pos := by decide
  segmentBlks_pos := by decide

theorem sizes_smallShard : (hashTableInit smallShard).lockBktsize = 16 ∧
    (hashTableInit smallShard).lockBuckets = 16 ∧ (hashTableInit smallShard).hashSize = 256 := by
  have locks : smallShard.locks = (16, 16) := by
    have grown : growLocks lockbktMinsize ((20 + lockbktMinsize - 1) / lockbktMinsize) = (256, 1) := by
      rw [growLocks, if_neg (by decide)]
      rfl
    have size : smallShard.hashSize = 20 := by decide
    rw [InitParams.locks, size]
    simp only [grown]
    rw [shrinkLocks, if_pos (by decide), shrinkLocks, if_pos (by decide), shrinkLocks,
      if_pos (by decide), shrinkLocks, if_pos (by decide), shrinkLocks, if_neg (by decide)]
  refine ⟨congrArg Prod.fst locks, congrArg Prod.snd locks, ?_⟩
  change max smallShard.hashSize (smallShard.locks.1 * smallShard.locks.2) = 256
  rw [locks]
  decide

/-- What the first put on such a shard leaves behind. -/
abbrev smallPut : SetResult ℕ :=
  ⟨{ (Shard.init smallShard).written 0 0 with
      handle := oneEntry (hashTableInit smallShard) 16 (firstEntry 16) }, .eok,
    some (putRec (hashTableInit smallShard) 16 firstPut (firstEntry 16) none)⟩

theorem slabSet_smallPut : slabSet (fun _ => 0) (Shard.init smallShard) firstPut = some smallPut := by
  obtain ⟨bktsize, locks, size⟩ := sizes_smallShard
  have index : hashck (fun _ : ℕ => 0) 0 1 = 16 := rfl
  have put := @slabSet_firstPut smallShard (fun _ => 0) (by rw [size]; decide)
    (by rw [size, index]; decide) (by decide)
  rwa [if_neg (by rw [buckets, mapBits, size, index, bktsize, locks]; decide)] at put

omit [DecidableEq K] in
/-- An empty shard. -/
theorem wellFormed_init (hashb : K → ℕ) (pos : 0 < (hashTableInit params).hashSize)
    (small : (hashTableInit params).hashSize ≤ 2 ^ 32)
    (addrs : (hashTableInit params).addrSize < 2 ^ 48) :
    (Shard.init params : Shard K).WellFormed hashb (fun _ => 0) fun _ => [] where
  inv := inv_init params
  pos := pos
  small := small
  addrs := addrs
  keys := by constructor <;> exact fun mem => (Multiset.notMem_zero _ mem).elim

theorem wellFormed_smallPut : ∃ contents cells,
    smallPut.shard.WellFormed (fun _ => 0) contents cells ∧ Covers smallPut.shard.handle := by
  obtain ⟨bktsize, locks, size⟩ := sizes_smallShard
  have small : (hashTableInit smallShard).hashSize ≤ 2 ^ 32 := by rw [size]; decide
  have covers := covers_init ⟨small, by rw [size, bktsize, locks]⟩
  have wf : (Shard.init smallShard : Shard ℕ).WellFormed (fun _ => 0) _ _ :=
    wellFormed_init _ (by rw [size]; decide) small (by decide)
  obtain ⟨result, returned, outcome, -⟩ :=
    slabSet_outcome wf covers (firstPut_legal (by decide) rfl)
  cases slabSet_smallPut.symm.trans returned
  cases outcome with
  | silent unlogged => cases unlogged
  | logged _ _ wf' sizes => exact ⟨_, _, wf', covers.congr sizes⟩

end Zetascale.Flash
