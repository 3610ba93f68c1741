import Zetascale.Flash.SlabSet

/-!
# Rollback

A rollback undoes the records of a transaction from the last to the first. Each
record tells what it takes to undo its change, wherever in the table the entries
are by then; so the shard ends with the entries and slabs it started from.
-/

namespace Zetascale.Flash

open Function HashHandle List Option Table Machine

universe u

variable {K : Type u} {s : Shard K} {contents : ℕ → Multiset HashEntry} {a : Contents} {r : TrxRec}
  {cells : Place → List ℕ} {t : TrxState}

section

/-- The shard has these entries and slabs, and the sizes of the handle. -/
structure Represents (h : HashHandle) (s : Shard K) (a : Contents) : Prop where
  inv : ∃ cells, Inv ⟨s.handle, a.buckets⟩ cells
  bitmap : s.bitmap = a.bitmap
  sizes : SameSizes h s.handle

/-- Bucket entries that undoing a record may take. -/
def TrxRec.takes (r : TrxRec) : ℕ := if r.lr.blocks = 0 then 1 else 0

variable {h : HashHandle} {b : Contents} {e : HashEntry} {bitmap : ℕ → Bool}

theorem taken_added (contents : ℕ → Multiset HashEntry) (b : ℕ) (e : HashEntry) :
    taken (Table.added contents b e) b e = contents := by
  rw [taken, added, update_self, Multiset.erase_cons_head, update_idem, update_eq_self]

theorem added_taken {b : ℕ}
    (mem : e ∈ contents b) : Table.added (Table.taken contents b e) b e = contents := by
  rw [taken, added, update_self, Multiset.cons_erase mem, update_idem, update_eq_self]

/-- An entry is found by its block. -/
theorem findAt_address {hashIdx : ℕ}
    (inv : Inv ⟨h, contents⟩ cells) (mem : e ∈ contents (hashIdx / bucketSize)) :
    ∃ he, h.findAt (fun e' => decide (e'.blkaddress = e.blkaddress)) hashIdx = some he ∧
      he.bucketEntry ∈ cells (.bucket (hashIdx / bucketSize)) ∧ (h.entry he).used = true ∧
      h.entry he = e := by
  rcases inv.findAt_spec (fun e' => decide (e'.blkaddress = e.blkaddress)) hashIdx with
    ⟨he, found, inChain, used, address, mem'⟩ | ⟨_, out⟩
  · exact ⟨he, found, inChain, used, Multiset.inj_on_of_nodup_map (inv.addressed.nodup _) _ mem' e mem
      (of_decide_eq_true address)⟩
  · have := out e mem
    simp at this

theorem SameSizes.trans {h' h'' : HashHandle} (first : SameSizes h h') (second : SameSizes h' h'') :
    SameSizes h h'' :=
  ⟨second.size.trans first.size, second.bktsize.trans first.bktsize, second.locks.trans first.locks,
    second.addrs.trans first.addrs, second.max.trans first.max⟩

section

variable (covers : Covers h) (pos : 0 < h.hashSize) (offset : r.lr.mloBlkOffset = e.blkaddress)
  (free : bitmap e.blkaddress = false)

include covers pos in
/-- The entry of a put is found, in a bucket that can be read and is locked. -/
theorem Represents.found (represents : Represents h s
      ⟨Table.added contents (r.syn % h.hashSize / bucketSize) e, update bitmap e.blkaddress true⟩) :
    ∃ cells he, Inv ⟨s.handle, added contents (r.syn % s.handle.hashSize / bucketSize) e⟩ cells ∧
      (s.handle.findAt (fun e' => decide (e'.blkaddress = e.blkaddress))
        (r.syn % s.handle.hashSize) = some he ∧
      he.bucketEntry ∈ cells (.bucket (r.syn % s.handle.hashSize / bucketSize)) ∧
      (s.handle.entry he).used = true ∧ s.handle.entry he = e) ∧
      r.syn % s.handle.hashSize < s.handle.hashSize ∧ Covers s.handle := by
  obtain ⟨⟨cells, inv⟩, _, sizes⟩ := represents
  rw [← sizes.size] at inv
  have mem : e ∈ Table.added contents (r.syn % s.handle.hashSize / bucketSize) e
      (r.syn % s.handle.hashSize / bucketSize) := by
    rw [added, update_self]
    exact Multiset.mem_cons_self e _
  obtain ⟨he, found⟩ := findAt_address inv mem
  exact ⟨cells, he, inv, found, Nat.mod_lt _ (sizes.size ▸ pos), covers.congr sizes⟩

include free in
/-- The block of an undone put is given back. -/
theorem Represents.freed {buckets : ℕ → Multiset HashEntry} {cells' : Place → List ℕ}
    {h' : HashHandle} (represents : Represents h s ⟨buckets, update bitmap e.blkaddress true⟩)
    (inv' : Inv ⟨h', contents⟩ cells') (sizes' : SameSizes s.handle h') :
    Represents h (Shard.dealloc { s with handle := h' } e.blkaddress) ⟨contents, bitmap⟩ := by
  refine ⟨⟨cells', inv'⟩, ?_, represents.sizes.trans sizes'⟩
  simp only [Shard.dealloc, represents.bitmap, update_idem]
  rw [← free, update_eq_self]

include covers pos offset free

/-- A put of a new object is reverted. -/
theorem osdTrxRevert_create (old : r.lr.mloOldOffset = 0)
    (represents : Represents h s ⟨Table.added contents (r.syn % h.hashSize / bucketSize) e,
      update bitmap e.blkaddress true⟩) :
    ∃ s', osdTrxRevert s r = some s' ∧ Represents h s' ⟨contents, bitmap⟩ ∧ s'.keyAt = s.keyAt ∧
      s'.handle.hashTableIdx = s.handle.hashTableIdx := by
  obtain ⟨cells, he, inv, ⟨found, inChain, used, rfl⟩, below, covers'⟩ := represents.found covers pos
  rcases inv.hashEntryDelete (below.trans_le covers'.small) (covers'.bucket_lt below) used inChain with
    ⟨past, _⟩ | ⟨h', cells', deleted, inv', sizes', index⟩
  · exact (not_lt.mpr past (covers'.lock_lt below)).elim
  · rw [taken_added] at inv'
    refine ⟨_, ?_, represents.freed free inv' sizes', rfl, index⟩
    simp [osdTrxRevert, if_neg (not_le.mpr (covers'.bucket_lt below)), offset, found, old, deleted]

/-- An overwrite is undone: the old entry is back. -/
theorem osdTrxRevert_overwrite (old : r.lr.mloOldOffset ≠ 0)
    (removable : Removable h.addrSize contents (r.syn % h.hashSize / bucketSize) r.e)
    (represents : Represents h s
      ⟨Table.added (Table.taken contents (r.syn % h.hashSize / bucketSize) r.e)
        (r.syn % h.hashSize / bucketSize) e, update bitmap e.blkaddress true⟩) :
    ∃ s', osdTrxRevert s r = some s' ∧ Represents h s' ⟨contents, bitmap⟩ ∧ s'.keyAt = s.keyAt ∧
      s'.handle.hashTableIdx = s.handle.hashTableIdx := by
  obtain ⟨cells, he, inv, ⟨found, inChain, used, rfl⟩, below, covers'⟩ := represents.found covers pos
  rw [← represents.sizes.size] at inv removable
  have back : Table.Free ⟨s.handle, taken (Table.added (Table.taken contents
      (r.syn % s.handle.hashSize / bucketSize) r.e) (r.syn % s.handle.hashSize / bucketSize)
      (s.handle.entry he)) (r.syn % s.handle.hashSize / bucketSize) (s.handle.entry he)⟩
      r.e.blkaddress := by
    rw [taken_added]
    exact ⟨represents.sizes.addrs ▸ removable.inTable, removable.fresh⟩
  obtain ⟨h', filled, inv', sizes', index⟩ := inv.replace inChain used removable.used back
    (below.trans_le covers'.small) fun _ => rfl
  rw [taken_added, added_taken removable.mem] at inv'
  refine ⟨_, ?_, represents.freed free inv' sizes', rfl, index⟩
  simp [osdTrxRevert, if_neg (not_le.mpr (covers'.bucket_lt below)), offset, found, old, filled]

end

/-- The entry of a deleted object is put back, unless the bucket entries are used up. -/
theorem osdTrxInsert_delete (covers : Covers h) (isset : ℕ → Bool)
    (removable : Removable h.addrSize contents (r.syn % h.hashSize / bucketSize) r.e)
    (represents : Represents h s
      ⟨Table.taken contents (r.syn % h.hashSize / bucketSize) r.e, bitmap⟩) :
    (osdTrxInsert isset s r.syn r.e = some (s, false) ∧
        ¬s.handle.hashTableIdx < s.handle.maxHashTableIdx) ∨
      ∃ s', osdTrxInsert isset s r.syn r.e = some (s', true) ∧
        Represents h s' ⟨contents, bitmap⟩ ∧ s'.keyAt = s.keyAt ∧
        s'.handle.hashTableIdx ≤ s.handle.hashTableIdx + 1 := by
  obtain ⟨⟨cells, inv⟩, bits, sizes⟩ := represents
  have free : Table.Free ⟨s.handle, taken contents (r.syn % h.hashSize / bucketSize) r.e⟩
      r.e.blkaddress := ⟨by rw [sizes.addrs]; exact removable.inTable, removable.fresh⟩
  rcases inv.insertEntry (covers.congr sizes) isset r.syn removable.used free with
    ⟨full, none⟩ | ⟨h', cells', inserted, inv', sizes', index⟩
  · exact .inl ⟨by simp [osdTrxInsert, full], none⟩
  · rw [sizes.size, added_taken removable.mem] at inv'
    exact .inr ⟨{ s with handle := h' },
      by simp [osdTrxInsert, inserted], ⟨⟨cells', inv'⟩, bits,
        sizes.trans sizes'⟩, rfl, index⟩

/-- Undoing a record takes back its change, unless the bucket entries are used up. -/
theorem undoRec_change (covers : Covers h) (pos : 0 < h.hashSize) (isset : ℕ → Bool)
    (status : TrxStatus) (change : Change h.hashSize h.addrSize a r b)
    (represents : Represents h s b) :
    (undoRec isset (s, status) r = some (s, .hashtableFull) ∧ r.takes = 1 ∧
        ¬s.handle.hashTableIdx < s.handle.maxHashTableIdx) ∨
      ∃ s', undoRec isset (s, status) r = some (s', status) ∧ Represents h s' a ∧
        s'.keyAt = s.keyAt ∧ s'.handle.hashTableIdx ≤ s.handle.hashTableIdx + r.takes := by
  cases change with
  | create put offset old free =>
    obtain ⟨s', reverted, represents', keyAt, index⟩ :=
      osdTrxRevert_create covers pos offset free old represents
    exact .inr ⟨s', by simp [undoRec, put, reverted], represents', keyAt, index.le.trans (Nat.le_add_right _ _)⟩
  | overwrite put offset old removable free =>
    obtain ⟨s', reverted, represents', keyAt, index⟩ :=
      osdTrxRevert_overwrite covers pos offset free old removable represents
    exact .inr ⟨s', by simp [undoRec, put, reverted], represents', keyAt, index.le.trans (Nat.le_add_right _ _)⟩
  | delete delete removable =>
    have one : r.takes = 1 := if_pos delete
    rcases osdTrxInsert_delete covers isset removable represents with
      ⟨full, none⟩ | ⟨s', inserted, represents', keyAt, index⟩
    · exact .inl ⟨by simp [undoRec, delete, full], one, none⟩
    · exact .inr ⟨s', by simp [undoRec, delete, inserted], represents', keyAt, one ▸ index⟩

/-- A failure is not forgotten. -/
theorem undoRec_status {isset : ℕ → Bool} {state final : Shard K × TrxStatus}
    (undone : undoRec isset state r = some final) (okay : final.2 = .okay) : state.2 = .okay := by
  unfold undoRec at undone
  split_ifs at undone with put
  · obtain ⟨s', _, rfl⟩ := map_eq_some_iff.mp undone
    exact okay
  · obtain ⟨⟨s', inserted⟩, _, rfl⟩ := map_eq_some_iff.mp undone
    cases inserted with
    | true => exact okay
    | false => cases okay

/-- The changes, with the bucket entries that undoing them may take. -/
def Counted (size addrSize : ℕ) (a : Contents × ℕ) (r : TrxRec) (b : Contents × ℕ) : Prop :=
  Change size addrSize a.1 r b.1 ∧ b.2 = a.2 + r.takes

theorem journal_counted {size addrSize : ℕ} {records : List TrxRec}
    (journal : Journal (Change size addrSize) a records b) (n : ℕ) :
    Journal (Counted size addrSize) (a, n) records (b, n + (records.map TrxRec.takes).sum) := by
  induction journal generalizing n with
  | nil a => exact .nil _
  | @cons a b c r rest first _ ih =>
    rw [map_cons, sum_cons, ← add_assoc]
    exact .cons ⟨first, rfl⟩ (ih _)

/-- With enough cells a rollback succeeds. -/
theorem rollback_succeeds (covers : Covers h) (pos : 0 < h.hashSize) (answers : ℕ → ℕ → Bool)
    (okay : t.status = .okay)
    (journal : Journal (Change h.hashSize h.addrSize) a t.trtab b) (represents : Represents h s b)
    (enough : s.handle.hashTableIdx + (t.trtab.map TrxRec.takes).sum ≤ h.maxHashTableIdx) :
    ∃ s', trxRollbackInternal answers s t = some (s', .okay) := by
  have start : (s, TrxStatus.okay).2 = .okay ∧ Represents h (s, TrxStatus.okay).1 b ∧
      (s, TrxStatus.okay).1.handle.hashTableIdx + (0 + (t.trtab.map TrxRec.takes).sum) ≤
        h.maxHashTableIdx := ⟨rfl, represents, by rwa [zero_add]⟩
  obtain ⟨final, undone, kept, _⟩ := Journal.undoAll_total
    (fun (state : Shard K × TrxStatus) (c : Contents × ℕ) => state.2 = .okay ∧
      Represents h state.1 c.1 ∧ state.1.handle.hashTableIdx + c.2 ≤ h.maxHashTableIdx)
    (fun {i a b r state} change represents => by
      obtain ⟨s, status⟩ := state
      obtain ⟨rfl, represents, enough⟩ := represents
      obtain ⟨change, count⟩ := change
      have represents : Represents h s b.1 := represents
      dsimp only at enough
      rcases undoRec_change covers pos (answers i) .okay change represents with
        ⟨_, one, full⟩ | ⟨s', undone, represents', _, index⟩
      · rw [represents.sizes.max] at full
        omega
      · exact ⟨(s', .okay), undone, rfl, represents', by dsimp only; omega⟩)
    (journal_counted journal 0) start
  refine ⟨final.1, ?_⟩
  rw [trxRollbackInternal, okay, undone, ← kept]

/-- A rollback that succeeds restores the contents. -/
theorem represents_of_rollback (covers : Covers h) (pos : 0 < h.hashSize) (answers : ℕ → ℕ → Bool)
    (journal : Journal (Change h.hashSize h.addrSize) a t.trtab b) (represents : Represents h s b)
    {s' : Shard K} (rolledBack : trxRollbackInternal answers s t = some (s', .okay)) :
    Represents h s' a ∧ s'.keyAt = s.keyAt := by
  refine Journal.represents_of_undoAll
    (fun (state : Shard K × TrxStatus) (c : Contents) => state.2 = .okay →
      Represents h state.1 c ∧ state.1.keyAt = s.keyAt)
    (fun {i a b r state final} change represents undone ok => ?_) journal
    (fun _ => ⟨represents, rfl⟩) rolledBack rfl
  obtain ⟨before, status⟩ := state
  obtain rfl : status = .okay := undoRec_status undone ok
  obtain ⟨represents, keyAt⟩ := represents rfl
  rcases undoRec_change covers pos (answers i) .okay change represents with
    ⟨full, _⟩ | ⟨later, undone', represents', keyAt', _⟩
  · rw [some.inj (undone.symm.trans full)] at ok
    cases ok
  · cases undone.symm.trans undone'
    exact ⟨represents', keyAt'.trans keyAt⟩

end

variable {hashb : K → ℕ}

section

variable [DecidableEq K] {i n : ℕ} {st : Store K}

theorem Change.allocated {size addrSize : ℕ} {b : Contents}
    (change : Change size addrSize a r b) {blk : ℕ} (before : a.bitmap blk = true) :
    b.bitmap blk = true := by
  have written : ∀ blk', update a.bitmap blk' true blk = true := by
    intro blk'
    by_cases same : blk = blk'
    · rw [same, update_self]
    · rwa [update_of_ne same]
  cases change with
  | create => exact written _
  | overwrite => exact written _
  | delete => exact before

/-- A transaction on shard `i` that has made `n` calls, started when the shard was `s`. -/
structure Running (hashb : K → ℕ) (s : Shard K) (contents : ℕ → Multiset HashEntry) (i n : ℕ)
    (st : Store K) : Prop where
  journal : ∃ contents' cells', (st.shards i).WellFormed hashb contents' cells' ∧
    Journal (Change s.handle.hashSize s.handle.addrSize) ⟨contents, s.bitmap⟩ st.trx.trtab
      ⟨contents', (st.shards i).bitmap⟩
  sizes : SameSizes s.handle (st.shards i).handle
  shard : st.trx.s = none ∨ st.trx.s = some i
  okay : st.trx.status = .okay
  length : st.trx.trtab.length ≤ n
  index : (st.shards i).handle.hashTableIdx + (st.trx.trtab.map TrxRec.takes).sum ≤
    s.handle.hashTableIdx + n
  allocated : ∀ blk, s.bitmap blk = true → (st.shards i).bitmap blk = true
  keyAt : ∀ blk, s.bitmap blk = true → (st.shards i).keyAt blk = s.keyAt blk

/-- A call is recorded while there is room. -/
theorem trxInProgress_captures (shard : t.s = none ∨ t.s = some i)
    (okay : t.status = .okay) (room : t.trtab.length < trxLimit) (r : TrxRec) :
    trxInProgress t i r = { s := some i, status := .okay, trtab := t.trtab ++ [r] } := by
  obtain ⟨first, status, trtab⟩ := t
  cases okay
  rcases shard with rfl | rfl
  · simp [trxInProgress, TrxState.capture, if_pos room]
  · simp [trxInProgress, TrxState.capture, if_pos room]

/-- One call of the transaction. -/
theorem Running.step (running : Running hashb s contents i n st) (covers : Covers s.handle)
    (room : n < trxLimit) {req : Request K} (legal : req.Legal (st.shards i)) :
    ∃ next, st.step hashb (i, req) = some next ∧ Running hashb s contents i (n + 1) next := by
  obtain ⟨contents', cells', wf, journal⟩ := running.journal
  obtain ⟨result, returned, outcome, keyAt⟩ :=
    slabSet_outcome wf (covers.congr running.sizes) legal
  have keys : ∀ blk, s.bitmap blk = true → result.shard.keyAt blk = s.keyAt blk := fun blk before =>
    (keyAt blk (running.allocated blk before)).trans (running.keyAt blk before)
  refine ⟨_, by rw [Store.step, returned, map_some], ?_⟩
  cases outcome with
  | silent none handle bitmap =>
    have here : update st.shards i result.shard i = result.shard := update_self ..
    refine ⟨⟨contents', cells', ?_, ?_⟩, ?_, ?_, ?_, ?_, ?_, ?_, ?_⟩ <;>
      simp only [Store.after, none, elim_none, here, handle, bitmap]
    · exact wf.next (handle ▸ wf.inv) (handle ▸ .refl _)
        (bitmap ▸ wf.keys.congr (fun _ => id) keyAt)
    · exact journal
    · exact running.sizes
    · exact running.shard
    · exact running.okay
    · exact Nat.le_succ_of_le running.length
    · exact Nat.le_succ_of_le running.index
    · exact running.allocated
    · exact keys
  | @logged r contents'' cells'' some change wf' sizes index =>
    have here : update st.shards i result.shard i = result.shard := update_self ..
    have captured := trxInProgress_captures running.shard running.okay
      (running.length.trans_lt room) r
    refine ⟨⟨contents'', cells'', ?_, ?_⟩, ?_, ?_, ?_, ?_, ?_, ?_, ?_⟩ <;>
      simp only [Store.after, some, elim_some, here, captured]
    · exact wf'
    · rw [← running.sizes.size, ← running.sizes.addrs]
      rw [← running.sizes.size, ← running.sizes.addrs] at journal
      exact journal.snoc change
    · exact running.sizes.trans sizes
    · exact .inr trivial
    · rw [length_append, length_singleton]
      exact Nat.succ_le_succ running.length
    · have before := running.index
      rw [map_append, sum_append, map_singleton, sum_singleton]
      change result.shard.handle.hashTableIdx + r.takes ≤ _ at index
      omega
    · exact fun blk before => change.allocated (running.allocated blk before)
    · exact keys

/-- What the calls of a transaction on shard `i` ask is legal. -/
abbrev OnShard (i : ℕ) (st : Store K) (op : ℕ × Request K) : Prop :=
  op.1 = i ∧ op.2.Legal (st.shards i)

/-- All calls of a transaction return. -/
theorem Running.run (running : Running hashb s contents i n st) (covers : Covers s.handle)
    {ops : List (ℕ × Request K)} (room : n + ops.length ≤ trxLimit)
    (admitted : Machine.Admitted (Store.step hashb) (OnShard i) st ops) :
    ∃ final, run (Store.step hashb) st ops = some final ∧
      Running hashb s contents i (n + ops.length) final := by
  induction ops generalizing st n with
  | nil => exact ⟨st, rfl, running⟩
  | cons op rest ih =>
    obtain ⟨⟨rfl, legal⟩, later⟩ := admitted
    rw [length_cons] at room ⊢
    obtain ⟨next, taken, running'⟩ := running.step covers (by omega) legal
    obtain ⟨final, reached, running''⟩ := ih running' (by omega) (later next taken)
    refine ⟨final, run_cons_eq_some.mpr ⟨next, taken, reached⟩, ?_⟩
    rwa [add_assoc, add_comm 1] at running''

end

section

variable [DecidableEq K]

/-- Every transaction on the shard returns, and a rollback that does not find the table full leaves
lookups and slabs as they were before the transaction. The table is not full if there is a bucket
entry left for every call. -/
def Restorable (hashb : K → ℕ) (s : Shard K) : Prop :=
  ∀ (i : ℕ) (st : Store K), st.shards i = s → st.trx = {} →
    ∀ ops, ops.length ≤ trxLimit →
      Machine.Admitted (Store.step hashb) (OnShard i) st ops →
      ∃ final, run (Store.step hashb) st ops = some final ∧ ∀ answers,
        (s.handle.hashTableIdx + ops.length ≤ s.handle.maxHashTableIdx →
          ∃ s', trxRollbackInternal answers (final.shards i) final.trx = some (s', .okay)) ∧
        ∀ s', trxRollbackInternal answers (final.shards i) final.trx = some (s', .okay) →
          s'.bitmap = s.bitmap ∧
            ∀ key cntrId, s'.lookup hashb key cntrId = s.lookup hashb key cntrId

/-- A well-formed shard can be restored. -/
theorem Shard.WellFormed.restorable (wf : s.WellFormed hashb contents cells)
    (covers : Covers s.handle) : Restorable hashb s := by
  rintro i st rfl noTrx ops few admitted
  have start : Running hashb (st.shards i) contents i 0 st := by
    refine ⟨⟨contents, cells, wf, ?_⟩, .refl _, ?_, ?_, ?_, ?_, fun _ => id, fun _ _ => rfl⟩ <;>
      rw [noTrx]
    · exact .nil _
    · exact .inl rfl
    · exact le_rfl
    · exact le_rfl
  obtain ⟨final, reached, running⟩ := start.run covers (by rwa [zero_add]) admitted
  rw [zero_add] at running
  obtain ⟨contents', cells', wf', journal⟩ := running.journal
  have represents : Represents (st.shards i).handle (final.shards i)
      ⟨contents', (final.shards i).bitmap⟩ := ⟨⟨cells', wf'.inv⟩, rfl, running.sizes⟩
  refine ⟨final, reached, fun answers => ⟨fun room => ?_, fun s' rolledBack => ?_⟩⟩
  · exact rollback_succeeds covers wf.pos answers running.okay journal represents
      (running.index.trans room)
  · obtain ⟨⟨⟨cells'', inv⟩, bits, sizes⟩, keyAt⟩ :=
      represents_of_rollback covers wf.pos answers journal represents rolledBack
    have same : ∀ blk, (st.shards i).bitmap blk = true → s'.keyAt blk = (st.shards i).keyAt blk :=
      fun blk before => by rw [keyAt]; exact running.keyAt blk before
    have keys : Keyed hashb (st.shards i).handle.hashSize s'.bitmap s'.keyAt contents := by
      rw [bits]
      exact wf.keys.congr (fun _ => id) same
    exact ⟨bits, fun key cntrId => wf.lookup_eq (wf.next inv sizes keys) sizes.size same⟩

end

section

variable {params : InitParams}

/-- The first hash index past the locks, as the hash of every key in container 1. -/
def pastLocksHash (params : InitParams) (_ : ℕ) : ℕ :=
  (hashTableInit params).lockBktsize * (hashTableInit params).lockBuckets + (2 ^ 64 - bucketSize)

theorem hashck_pastLocks (small : (hashTableInit params).lockBktsize *
    (hashTableInit params).lockBuckets < 2 ^ 64) : hashck (pastLocksHash params) 0 1 =
      (hashTableInit params).lockBktsize * (hashTableInit params).lockBuckets := by
  rw [hashck, pastLocksHash, bucketSize]
  generalize (hashTableInit params).lockBktsize * (hashTableInit params).lockBuckets = n at small
  rw [show n + (2 ^ 64 - 16) + 1 * 16 = n + 2 ^ 64 by omega, Nat.add_mod_right, Nat.mod_eq_of_lt small]

theorem osdTrxRevert_fault {he : EntryPtr} {hashIdx : ℕ}
    (index : r.syn % s.handle.hashSize = hashIdx)
    (found : s.handle.findAt (fun e => decide (e.blkaddress = r.lr.mloBlkOffset)) hashIdx = some he)
    (new : r.lr.mloOldOffset = 0) (fault : hashEntryDelete s.handle he hashIdx = none) :
    osdTrxRevert s r = none := by
  simp [osdTrxRevert, index, found, new, fault]

theorem rollback_firstPut {hashb : ℕ → ℕ} (answers : ℕ → ℕ → Bool)
    (below : hashck hashb 0 1 < (hashTableInit params).hashSize)
    (small : (hashTableInit params).hashSize ≤ 2 ^ 32)
    (room : hashck hashb 0 1 / bucketSize < (hashTableInit params).buckets)
    (lock : (hashTableInit params).lockBuckets ≤
      hashck hashb 0 1 / (hashTableInit params).lockBktsize) : trxRollbackInternal answers
      { (Shard.init params).written 0 0 with
        handle := oneEntry (hashTableInit params) (hashck hashb 0 1)
          (firstEntry (hashck hashb 0 1)) }
      ⟨some 0, .okay, [putRec (hashTableInit params) (hashck hashb 0 1) firstPut
        (firstEntry (hashck hashb 0 1)) none]⟩ = none := by
  have fault := hashEntryDelete_pastLocks (e := firstEntry (hashck hashb 0 1))
    (below.trans_le small) room lock rfl fun _ => rfl
  exact congrArg (Option.map _) (osdTrxRevert_fault (Nat.mod_eq_of_lt below)
    (findAt_oneEntry rfl rfl (decide_eq_true rfl)) rfl fault)

/-- A shard whose locks do not cover the hash indexes cannot always be restored. -/
theorem covered_of_restorable (small : (hashTableInit params).hashSize ≤ 2 ^ 32)
    (restorable : ∀ hashb : ℕ → ℕ, Restorable hashb (Shard.init params)) : params.Covered := by
  refine ⟨small, not_lt.mp fun past => ?_⟩
  have blocks := addrSize_init_pos past
  have index := hashck_pastLocks (past.trans_le (small.trans (by decide)))
  have below : hashck (pastLocksHash params) 0 1 < (hashTableInit params).hashSize := by rwa [index]
  have set := slabSet_firstPut small below blocks
  obtain ⟨final, reached, rollback⟩ := restorable (pastLocksHash params) 0 (emptyStore params) rfl rfl
    [(0, firstPut)] (by decide) (⟨⟨rfl, firstPut_legal blocks rfl⟩, fun _ _ => trivial⟩)
  obtain ⟨next, taken, last⟩ := run_cons_eq_some.mp reached
  cases last
  obtain ⟨result, returned, rfl⟩ := map_eq_some_iff.mp taken
  rw [show slabSet (pastLocksHash params) ((emptyStore params).shards 0) firstPut = _ from set]
    at returned
  split_ifs at returned with fault
  cases returned
  have room := not_le.mp (not_or.mp fault).1
  obtain ⟨s', rolledBack⟩ := (rollback fun _ _ => false).1
    (maxHashTableIdx_init_pos small (Nat.zero_lt_of_lt room))
  have none := rollback_firstPut (fun _ _ => false) below small room
    (by rw [index, lock_pastLocks])
  exact some_ne_none _ (rolledBack.symm.trans none)

end

/-- A rollback restores every shard whose locks cover the hash indexes; with indexes of 32 bits, it
cannot restore all others. -/
theorem rollback_restores (K : Type u) [DecidableEq K] :
    (∀ (hashb : K → ℕ) (s : Shard K) (contents : ℕ → Multiset HashEntry) (cells : Place → List ℕ),
        s.WellFormed hashb contents cells → Covers s.handle → Restorable hashb s) ∧
      ∀ params : InitParams, (hashTableInit params).hashSize ≤ 2 ^ 32 →
        (∀ hashb : ℕ → ℕ, Restorable hashb (Shard.init params)) → params.Covered :=
  ⟨fun _ _ _ _ wf covers => wf.restorable covers, fun _ small restorable =>
    covered_of_restorable small restorable⟩

/-- The object of `firstPut` written anew, … -/
def overwrite : Request ℕ :=
  { key := 0, cntrId := 1, payload := some ⟨1, some 1, false, false, fun _ => false⟩ }

/-- … and deleted. -/
def removal : Request ℕ := { key := 0, cntrId := 1, payload := none }

/-- An object that was there is overwritten and deleted; after the rollback it is there again. -/
theorem rollback_restores_overwrite_removal :
    ∃ final, run (Store.step fun _ => 0) ⟨fun _ => smallPut.shard, {}⟩
        [(0, overwrite), (0, removal)] = some final ∧
      (final.shards 0).lookup (fun _ => 0) 0 1 = none ∧
      ∃ s, trxRollbackInternal (fun _ _ => false) (final.shards 0) final.trx = some (s, .okay) ∧
        s.bitmap = smallPut.shard.bitmap ∧ s.lookup (fun _ => 0) 0 1 = some (firstEntry 16) := by
  obtain ⟨contents, cells, wf, covers⟩ := wellFormed_smallPut
  have slab : overwrite.Legal smallPut.shard := by
    refine ⟨one_ne_zero, fun payload put => ?_⟩
    cases put
    exact ⟨one_pos, fun blk slab => by cases slab; exact ⟨by decide, rfl⟩⟩
  obtain ⟨final, reached, rollback⟩ := (rollback_restores ℕ).1 _ _ _ _ wf covers 0
    ⟨fun _ => smallPut.shard, {}⟩ rfl rfl [(0, overwrite), (0, removal)] (by decide)
    ⟨⟨rfl, slab⟩, fun _ _ => ⟨⟨rfl, one_ne_zero, by rintro _ ⟨⟩⟩, fun _ _ => trivial⟩⟩
  obtain ⟨s, rolledBack⟩ := (rollback fun _ _ => false).1 (by decide +kernel)
  obtain ⟨bitmap, lookup⟩ := (rollback fun _ _ => false).2 s rolledBack
  have gone : (run (Store.step fun _ => 0) ⟨fun _ => smallPut.shard, {}⟩
      [(0, overwrite), (0, removal)]).map (fun f => (f.shards 0).lookup (fun _ => 0) 0 1) =
        some none := by
    decide +kernel
  have before : smallPut.shard.lookup (fun _ => 0) 0 1 = some (firstEntry 16) := by decide +kernel
  rw [reached] at gone
  exact ⟨final, reached, some.inj gone, s, rolledBack, bitmap, (lookup 0 1).trans before⟩

/-- On such a shard a put of a new object at the first hash index past the locks returns, and its
rollback is out of bounds. -/
theorem rollback_past_locks :
    Machine.Admitted (Store.step (pastLocksHash oddLocks)) (OnShard 0) (emptyStore oddLocks)
        [(0, firstPut)] ∧
      (Machine.run (Store.step (pastLocksHash oddLocks)) (emptyStore oddLocks)
        [(0, firstPut)]).isSome = true ∧
      ∀ final answers, run (Store.step (pastLocksHash oddLocks)) (emptyStore oddLocks)
          [(0, firstPut)] = some final →
        trxRollbackInternal answers (final.shards 0) final.trx = none := by
  obtain ⟨bktsize, locks, size⟩ := sizes_oddLocks
  have index : hashck (pastLocksHash oddLocks) 0 1 = 134222848 := by
    rw [hashck_pastLocks (by rw [bktsize, locks]; decide), bktsize, locks]
  have small : (hashTableInit oddLocks).hashSize ≤ 2 ^ 32 := by rw [size]; decide
  have below : hashck (pastLocksHash oddLocks) 0 1 < (hashTableInit oddLocks).hashSize := by
    rw [size, index]
    decide
  have room : hashck (pastLocksHash oddLocks) 0 1 / bucketSize < (hashTableInit oddLocks).buckets := by
    rw [buckets, size, index]
    decide
  have set := slabSet_firstPut small below (by decide : 0 < (hashTableInit oddLocks).addrSize)
  rw [if_neg (not_or.mpr ⟨not_le.mpr room, by rw [mapBits, index, bktsize, locks]; decide⟩)] at set
  have step := congrArg (Option.map ((emptyStore oddLocks).after 0)) set
  have run : Machine.run (Store.step (pastLocksHash oddLocks)) (emptyStore oddLocks)
      [(0, firstPut)] = _ := congrArg (bind · some) step
  refine ⟨⟨⟨rfl, firstPut_legal (by decide) rfl⟩, fun _ _ => trivial⟩, by rw [run]; rfl, fun final answers reached => ?_⟩
  cases run.symm.trans reached
  exact rollback_firstPut answers below small room (by rw [index, bktsize, locks])

end Zetascale.Flash
