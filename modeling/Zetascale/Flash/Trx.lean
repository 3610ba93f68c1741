import Zetascale.Flash.HashTable
import Zetascale.Lib.Journal
import Zetascale.Lib.Machine

/-!
# Puts, deletes and transactions on flash

The part of `mcd_fth_osd_slab_set` that a persistent shard in store mode runs
for objects that are not raw, and the transactions of `mcd_rec.c` around it: log
records are held back while a transaction is in progress, together with the hash
entry that a put or delete did away with. A commit writes them to the log, a
rollback undoes them from the last to the first.

What a call gets from elsewhere is part of its request: the slab that the
allocator found, whether the object is deleted in the future, the `reserved` bit
of the entry on the stack, which nothing sets. Device writes succeed.
-/

namespace Zetascale.Flash

open Function HashHandle

universe u

variable {K : Type u} [DecidableEq K]

/-- A shard: its hash table, the bits of the slabs that are allocated, by block address, and the
key of the object that was last written at a block address. -/
structure Shard (K : Type u) where
  handle : HashHandle
  bitmap : ℕ → Bool
  keyAt : ℕ → Option K

/-- `hashck`, over the hash `hashb` of the key alone. -/
def hashck (hashb : K → ℕ) (key : K) (cntrId : ℕ) : ℕ :=
  (hashb key + cntrId * bucketSize) % 2 ^ 64

/-- The walk along a chain to the first used entry that is wanted. -/
def HashHandle.find (h : HashHandle) (wanted : HashEntry → Bool) : ℕ → ℕ → Option EntryPtr
  | 0, _ => none
  | fuel + 1, hbi =>
    if hbi = 0 then none
    else
      match (List.finRange 4).find? fun i =>
          (h.entry ⟨hbi - 1, i⟩).used && wanted (h.entry ⟨hbi - 1, i⟩) with
      | some i => some ⟨hbi - 1, i⟩
      | none => find h wanted fuel (h.hashTable (hbi - 1)).next

/-- The chain of a hash index searched. -/
def HashHandle.findAt (h : HashHandle) (wanted : HashEntry → Bool) (hashIdx : ℕ) :
    Option EntryPtr :=
  h.find wanted (h.hashTableIdx + 1) (h.hashBuckets (hashIdx / bucketSize))

/-- The entry is for the container and syndrome, and the key on flash is the key. -/
def Shard.isKey (hashb : K → ℕ) (s : Shard K) (key : K) (cntrId : ℕ) (e : HashEntry) : Bool :=
  decide (e.cntrId = cntrId) && decide (e.hesyndrome = hashck hashb key cntrId / 2 ^ 48) &&
    decide (s.keyAt e.blkaddress = some key)

/-- `hash_table_get` -/
def hashTableGet (hashb : K → ℕ) (s : Shard K) (key : K) (cntrId : ℕ) : Option EntryPtr :=
  if cntrId = 0 then none
  else s.handle.findAt (s.isKey hashb key cntrId) (hashck hashb key cntrId % s.handle.hashSize)

/-- What a lookup of the key finds. -/
def Shard.lookup (hashb : K → ℕ) (s : Shard K) (key : K) (cntrId : ℕ) : Option HashEntry :=
  (hashTableGet hashb s key cntrId).map s.handle.entry

/-- What comes with a put: the object's blocks, the slab that was allocated for it, if any. -/
structure Payload where
  blocks : ℕ
  blkOffset : Option ℕ
  deleted : Bool
  reserved : Bool
  isset : ℕ → Bool

/-- A call of `mcd_fth_osd_slab_set`; without a payload it is a delete. -/
structure Request (K : Type u) where
  key : K
  cntrId : ℕ
  payload : Option Payload
  sequence : ℕ := 0
  /-- the sequence number of the object found, as read from flash -/
  targetSeqno : ℕ := 0
  testExist : Bool := false
  testNonexist : Bool := false

/-- The codes it returns. -/
inductive FlashRc
  | eok
  | enoent
  | eexist
  | einval
  | enospc
  deriving DecidableEq

/-- `mcd_trx_rec_t`: what `log_write_trx` is given. -/
structure TrxRec where
  lr : Recovery.LogRec
  syn : ℕ
  e : HashEntry := {}

/-- What a call leaves behind: the shard, its code, and the record it logs. -/
structure SetResult (K : Type u) where
  shard : Shard K
  rc : FlashRc
  logged : Option TrxRec := none

/-- `MCD_OSD_OBJ_MAX_BLKS` -/
def objMaxBlks : ℕ := 4095

/-- `new_entry` -/
def newEntry (syndrome cntrId blkOffset : ℕ) (payload : Payload) : HashEntry where
  used := true
  deleted := payload.deleted
  referenced := true
  reserved := payload.reserved
  blocks := payload.blocks
  hesyndrome := syndrome / 2 ^ 48
  blkaddress := blkOffset
  cntrId

/-- The bucket field of a log record. -/
def rbucket (h : HashHandle) (syndrome : ℕ) : ℕ :=
  if h.addrTable.isNone then syndrome % h.hashSize / bucketSize else syndrome % h.hashSize

/-- The log record of a put. -/
def putRec (h : HashHandle) (syndrome : ℕ) (req : Request K) (new : HashEntry)
    (old : Option HashEntry) : TrxRec where
  lr :=
    { syndrome := new.hesyndrome
      deleted := new.deleted
      blocks := new.blocks
      rbucket := rbucket h syndrome
      mloBlkOffset := new.blkaddress
      mloOldOffset := (old.map fun e => Recovery.complement48 e.blkaddress).getD 0
      cntrId := req.cntrId
      seqno := req.sequence
      targetSeqno := if old.isSome then req.targetSeqno else 0 }
  syn := syndrome
  e := old.getD {}

/-- The log record of a delete; that it has no blocks tells it from a put. -/
def deleteRec (h : HashHandle) (syndrome : ℕ) (req : Request K) (old : HashEntry) : TrxRec where
  lr :=
    { syndrome := old.hesyndrome
      deleted := old.deleted
      blocks := 0
      rbucket := rbucket h syndrome
      mloBlkOffset := old.blkaddress
      mloOldOffset := Recovery.complement48 old.blkaddress
      cntrId := req.cntrId
      seqno := req.sequence
      targetSeqno := req.targetSeqno }
  syn := syndrome
  e := old

/-- The slab is allocated and the object written to it. -/
def Shard.written (s : Shard K) (blkOffset : ℕ) (key : K) : Shard K :=
  { s with bitmap := update s.bitmap blkOffset true, keyAt := update s.keyAt blkOffset (some key) }

/-- `mcd_fth_osd_slab_dealloc` -/
def Shard.dealloc (s : Shard K) (blkOffset : ℕ) : Shard K :=
  { s with bitmap := update s.bitmap blkOffset false }

/-- The put of an object whose slab was allocated. An entry there is overwritten in place; its slab
stays allocated until the log record is applied. -/
def slabPut (s : Shard K) (req : Request K) (syndrome : ℕ) (payload : Payload) (blkOffset : ℕ) :
    Option EntryPtr → Option (SetResult K)
  | some he =>
    let new := newEntry syndrome req.cntrId blkOffset payload
    (fillEntry s.handle he new (syndrome % s.handle.hashSize)).map fun h =>
      { shard := { s.written blkOffset req.key with handle := h }
        rc := .eok
        logged := putRec s.handle syndrome req new (s.handle.entry he) }
  | none =>
    let new := newEntry syndrome req.cntrId blkOffset payload
    (insertEntry payload.isset s.handle syndrome new).map fun (h, inserted) =>
      if inserted then
        { shard := { s.written blkOffset req.key with handle := h }
          rc := .eok
          logged := putRec s.handle syndrome req new none }
      else
        { shard := { (s.written blkOffset req.key).dealloc blkOffset with handle := h }
          rc := .enospc }

/-- `mcd_fth_osd_slab_set`. `none` is an access out of bounds in the hash table. -/
def slabSet (hashb : K → ℕ) (s : Shard K) (req : Request K) : Option (SetResult K) :=
  let syndrome := hashck hashb req.key req.cntrId
  if s.handle.buckets ≤ syndrome % s.handle.hashSize / bucketSize then none
  else
    let found := hashTableGet hashb s req.key req.cntrId
    match req.payload, found with
    | none, none => some { shard := s, rc := .enoent }
    | none, some he =>
      if req.testExist then some { shard := s, rc := .eexist }
      else
        (hashEntryDelete s.handle he (syndrome % s.handle.hashSize)).map fun h =>
          { shard := { s with handle := h }
            rc := .eok
            logged := deleteRec s.handle syndrome req (s.handle.entry he) }
    | some payload, found =>
      if objMaxBlks < payload.blocks then some { shard := s, rc := .einval }
      else if found.isNone ∧ req.testNonexist then some { shard := s, rc := .enoent }
      else if found.isSome ∧ req.testExist then some { shard := s, rc := .eexist }
      else
        match payload.blkOffset with
        | none => some { shard := s, rc := .enospc }
        | some blkOffset => slabPut s req syndrome payload blkOffset found

/-- `mcd_trx_t` -/
inductive TrxStatus
  | okay
  | tooBig
  | badShard
  | hashtableFull
  deriving DecidableEq

/-- `mcd_trx_state_t`. Memory for the table of records can be had. -/
structure TrxState where
  s : Option ℕ := none
  status : TrxStatus := .okay
  trtab : List TrxRec := []

/-- `TRX_LIMIT` -/
def trxLimit : ℕ := 100000

/-- `mcd_trx_rec_avail`, and the record stored if there is room. -/
def TrxState.capture (t : TrxState) (r : TrxRec) : TrxState :=
  if t.status = .okay then
    if t.trtab.length < trxLimit then { t with trtab := t.trtab ++ [r] }
    else { t with status := .tooBig }
  else t

/-- `trx_in_progress` -/
def trxInProgress (t : TrxState) (shard : ℕ) (r : TrxRec) : TrxState :=
  match t.s with
  | none => { t with s := some shard }.capture r
  | some first => if first = shard then t.capture r else { t with status := .badShard }

/-- The shards and the transaction of a thread. -/
structure Store (K : Type u) where
  shards : ℕ → Shard K
  trx : TrxState

/-- What a call on a shard leaves behind; its record is captured by the transaction. -/
def Store.after (st : Store K) (i : ℕ) (result : SetResult K) : Store K where
  shards := update st.shards i result.shard
  trx := result.logged.elim st.trx (trxInProgress st.trx i)

omit [DecidableEq K] in
@[simp] theorem Store.after_shards_self (st : Store K) (i : ℕ) (result : SetResult K) :
    (st.after i result).shards i = result.shard := update_self ..

omit [DecidableEq K] in
theorem Store.after_shards_of_ne (st : Store K) {i j : ℕ} (ne : j ≠ i) (result : SetResult K) :
    (st.after i result).shards j = st.shards j := update_of_ne ne ..

/-- A put or delete on a shard, inside the transaction. -/
def Store.step (hashb : K → ℕ) (st : Store K) (op : ℕ × Request K) : Option (Store K) :=
  (slabSet hashb (st.shards op.1) op.2).map (st.after op.1)

/-- `MCD_REC_LOGBUF_SLOTS` records fit into a log buffer, four of them are page headers. -/
def padded (slots n : ℕ) : ℕ := n * slots / (slots - 4)

/-- A record that recovery takes no notice of. -/
def casRec : Recovery.LogRec := { mloBlkOffset := 2 ^ 48 - 1 }

/-- `mcd_trx_commit_internal`: the status, and what is written to the log. `slots` is
`MCD_REC_LOGBUF_SLOTS`, `left` the slots left in the current log. -/
def trxCommitInternal (slots left : ℕ) (t : TrxState) : TrxStatus × List Recovery.LogRec :=
  if t.status = .okay ∧ t.trtab ≠ [] then
    let padding :=
      if 1 < t.trtab.length ∧ left < padded slots t.trtab.length then List.replicate left casRec
      else []
    let first := t.trtab.dropLast.map fun r => { r.lr with trx := .op }
    let last := t.trtab.getLast?.toList.map fun r => { r.lr with trx := .opLast }
    (t.status, padding ++ first ++ last)
  else (t.status, [])

/-- `mcd_osd_trx_revert` -/
def osdTrxRevert (s : Shard K) (r : TrxRec) : Option (Shard K) :=
  let hashIdx := r.syn % s.handle.hashSize
  if s.handle.buckets ≤ hashIdx / bucketSize then none
  else
    match s.handle.findAt (fun e => decide (e.blkaddress = r.lr.mloBlkOffset)) hashIdx with
    | none => some s
    | some he =>
      if r.lr.mloOldOffset ≠ 0 then
        (fillEntry s.handle he r.e hashIdx).map fun h =>
          { s with handle := h }.dealloc r.lr.mloBlkOffset
      else
        (hashEntryDelete s.handle he hashIdx).map fun h =>
          { s with handle := h }.dealloc r.lr.mloBlkOffset

/-- `mcd_osd_trx_insert`; the answer tells whether there was room. -/
def osdTrxInsert (isset : ℕ → Bool) (s : Shard K) (syn : ℕ) (orig : HashEntry) :
    Option (Shard K × Bool) :=
  (insertEntry isset s.handle syn orig).map fun (h, inserted) => ({ s with handle := h }, inserted)

/-- One record undone. -/
def undoRec (isset : ℕ → Bool) (state : Shard K × TrxStatus) (r : TrxRec) :
    Option (Shard K × TrxStatus) :=
  if r.lr.blocks ≠ 0 then (osdTrxRevert state.1 r).map fun s => (s, state.2)
  else (osdTrxInsert isset state.1 r.syn r.e).map fun (s, inserted) =>
    (s, if inserted then state.2 else .hashtableFull)

/-- `mcd_trx_rollback_internal`: its loop goes from the last record to the first. The map of free
lists answers `answers i` when `i` records are undone. -/
def trxRollbackInternal (answers : ℕ → ℕ → Bool) (s : Shard K) (t : TrxState) :
    Option (Shard K × TrxStatus) :=
  Journal.undoAll (fun i => undoRec (answers i)) t.trtab (s, t.status)

/-- `MCD_REC_LOGBUF_SLOTS`: 16 KiB of records of 64 bytes. -/
def logbufSlots : ℕ := 256

/-- `MCD_REC_LOG_BLK_SLOTS`; the first of them is the page header. -/
def logBlkSlots : ℕ := 64

/-- The slot that `log_write_internal` fills: page headers are skipped. -/
def fillSlot (nextFill : ℕ) : ℕ := if nextFill % logBlkSlots = 0 then nextFill + 1 else nextFill

/-- `slot_seqno` of the records written one after the other. -/
def slotSeqno : ℕ → ℕ → ℕ
  | nextFill, 0 => fillSlot nextFill
  | nextFill, i + 1 => slotSeqno (fillSlot nextFill + 1) i

/-- The slots left in the current log, as a `uint`. -/
def slotsLeft (totalSlots nextFill : ℕ) : ℕ := (totalSlots - nextFill % totalSlots) % 2 ^ 32

/-- Every page has room for 63 records: the slot of a record follows from the number of records
before it. -/
theorem slotSeqno_eq (nextFill i : ℕ) : slotSeqno nextFill i = nextFill - (nextFill + 63) / 64 + i
      + (nextFill - (nextFill + 63) / 64 + i) / 63 + 1 := by
  induction i generalizing nextFill with
  | zero =>
    unfold slotSeqno fillSlot logBlkSlots
    split_ifs <;> omega
  | succ i ih =>
    rw [slotSeqno, ih]
    unfold fillSlot logBlkSlots
    split_ifs <;> omega

/-- What a commit writes: the records of the transaction, and padding if they are several and the
log looks too short for them. -/
theorem trxCommitInternal_length (slots left : ℕ) {t : TrxState} (okay : t.status = .okay) :
    ∃ padding, (trxCommitInternal slots left t).2.length = padding + t.trtab.length ∧
      (1 < t.trtab.length ∧ left < padded slots t.trtab.length ∧ padding = left ∨
        (t.trtab.length ≤ 1 ∨ padded slots t.trtab.length ≤ left) ∧ padding = 0) := by
  rcases t.trtab.eq_nil_or_concat with empty | ⟨rest, last, records⟩
  · exact ⟨0, by simp [trxCommitInternal, empty], .inr ⟨.inl (by simp [empty]), rfl⟩⟩
  · have nonempty : t.trtab ≠ [] := by simp [records]
    by_cases short : 1 < t.trtab.length ∧ left < padded slots t.trtab.length
    · refine ⟨left, ?_, .inl ⟨short.1, short.2, rfl⟩⟩
      rw [trxCommitInternal, if_pos ⟨okay, nonempty⟩, if_pos short]
      simp [records]
    · refine ⟨0, ?_, .inr ⟨by omega, rfl⟩⟩
      rw [trxCommitInternal, if_pos ⟨okay, nonempty⟩, if_neg short]
      simp [records]

/-- A log of so many pages holds 63 records for each of them. -/
theorem slotSeqno_div {pages nextFill i log : ℕ}
    (lower : 63 * (log * pages) ≤ nextFill - (nextFill + 63) / 64 + i)
    (upper : nextFill - (nextFill + 63) / 64 + i < 63 * (log * pages + pages)) :
    slotSeqno nextFill i / (pages * logBlkSlots) = log := by
  rw [slotSeqno_eq]
  unfold logBlkSlots
  refine Nat.div_eq_of_lt_le ?_ ?_
  · rw [← mul_assoc]
    omega
  · rw [← mul_assoc, Nat.succ_mul]
    omega

/-- The records of a transaction, behind the padding, are all written to one of the two logs. -/
theorem transaction_in_one_log (pages nextFill : ℕ) {t : TrxState}
    (small : t.trtab.length ≤ trxLimit)
    (room : 2 * padded logbufSlots trxLimit ≤ pages * logBlkSlots) :
    ∃ log, ∀ i,
      (trxCommitInternal logbufSlots (slotsLeft (pages * logBlkSlots) nextFill) t).2.length
        ≤ i + t.trtab.length →
      i < (trxCommitInternal logbufSlots (slotsLeft (pages * logBlkSlots) nextFill) t).2.length →
      slotSeqno nextFill i / (pages * logBlkSlots) = log := by
  by_cases okay : t.status = .okay
  swap
  · exact ⟨0, fun i _ below => absurd below (by simp [trxCommitInternal, okay])⟩
  obtain ⟨padding, written, cases⟩ := trxCommitInternal_length logbufSlots
    (slotsLeft (pages * logBlkSlots) nextFill) okay
  simp only [padded, logbufSlots, trxLimit, slotsLeft, logBlkSlots] at small room cases
  -- the log that is being filled, and the slots filled in it
  have split := Nat.div_add_mod nextFill (pages * 64)
  have inside : nextFill % (pages * 64) < pages * 64 := Nat.mod_lt _ (by omega)
  rw [mul_comm (pages * 64), ← mul_assoc] at split
  rcases cases with ⟨several, short, rfl⟩ | ⟨one | fits, rfl⟩
  · -- the padding ends in the next log, unless the count of the slots left was cut off
    by_cases exact : pages * 64 - nextFill % (pages * 64) < 2 ^ 32
    · refine ⟨nextFill / (pages * 64) + 1, fun i first below => slotSeqno_div ?_ ?_⟩ <;>
        rw [Nat.succ_mul (nextFill / _)] <;> omega
    · refine ⟨nextFill / (pages * 64), fun i first below => slotSeqno_div ?_ ?_⟩ <;> omega
  · refine ⟨slotSeqno nextFill 0 / (pages * logBlkSlots), fun i _ below => ?_⟩
    rw [show i = 0 by omega]
  · refine ⟨nextFill / (pages * 64), fun i first below => slotSeqno_div ?_ ?_⟩ <;> omega

/-- Two records behind the last slot of a log. -/
theorem transaction_in_one_log_padded :
    ∃ log, ∀ i, 3 ≤ i + 2 → i < 3 → slotSeqno 204799 i / (3200 * logBlkSlots) = log :=
  transaction_in_one_log 3200 204799 (t := { trtab := [⟨{}, 0, {}⟩, ⟨{}, 0, {}⟩] })
    (by decide) (by decide)
end Zetascale.Flash
