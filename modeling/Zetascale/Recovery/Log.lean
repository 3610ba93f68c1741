import Zetascale.Lib.Ring

/-!
# Log processing in recovery

After a crash the updater thread merges the old log and then the current log
into the object table. The table is worked on in chunks, and for every chunk
the whole log is read again from the pages cached in memory. A record that is
read goes through a stack of filters: `cs` holds the last records back in a ring
until their slabs have been verified, `it` parks the records of a transaction
until its last record arrives, and `mp` writes what is left to the table. The
filters for btree statistics and outer transactions lie between `it` and `mp`
and hand on every record.
-/

namespace Zetascale.Recovery

open Function

/-- The `trx` field of a log record. -/
inductive TrxMark where
  | plain
  | op
  | opLast
  deriving DecidableEq

/-- `mcd_logrec_object_t`: the fields that log processing reads or writes. -/
structure LogRec where
  syndrome : ℕ := 0
  deleted : Bool := false
  trx : TrxMark := .plain
  blocks : ℕ := 0
  rbucket : ℕ := 0
  mloBlkOffset : ℕ := 0
  mloOldOffset : ℕ := 0
  cntrId : ℕ := 0
  seqno : ℕ := 0
  targetSeqno : ℕ := 0
  pass : ℕ := 0
  deriving DecidableEq

/-- A log page: its header and its records. A page of 4096 bytes has 63 of them. -/
structure LogPage where
  eyeCatcher : ℕ := 0
  version : ℕ := 0
  lsn : ℕ := 0
  checksum : ℕ := 0
  recs : List LogRec := []
  deriving DecidableEq

/-- `MCD_REC_LOGHDR_EYE_CATCHER`. -/
def loghdrEyeCatcher : ℕ := 0x50474f4c

/-- `MCD_REC_LOGHDR_VERSION`. -/
def loghdrVersion : ℕ := 1

/-- What recovery does not change: settings, the checkpoint, the flash. -/
structure Config where
  /-- `shard->ckpt->LSN` -/
  ckptLSN : ℕ
  /-- `flash_settings.chksum_object` -/
  chksumObject : Bool
  /-- Cells of each of the two rings. -/
  ringSize : ℕ
  ringSize_pos : 0 < ringSize
  /-- The slab a record names has the checksum stored in it. -/
  intact : LogRec → Bool
  /-- `Mcd_rec_update_verify` -/
  updateVerify : Bool
  /-- `shard->replicated` -/
  replicated : Bool
  /-- Objects in the table. -/
  tableObjs : ℕ
  /-- Objects in a chunk. -/
  chunkObjs : ℕ
  chunkObjs_pos : 0 < chunkObjs

namespace Config

variable (cfg : Config)

/-- `state.num_chunks` -/
def numChunks : ℕ := (cfg.tableObjs + cfg.chunkObjs - 1) / cfg.chunkObjs

/-- `state->start_obj` -/
def startObj (chunk : ℕ) : ℕ := chunk * cfg.chunkObjs

/-- `state->num_objs`: the last chunk may be shorter. -/
def numObjs (chunk : ℕ) : ℕ := min cfg.chunkObjs (cfg.tableObjs - cfg.startObj chunk)

end Config

/-! ## Page checksums -/

/-- `mix64` -/
def mix64 (a b c : UInt64) : UInt64 × UInt64 × UInt64 :=
  let a := (a - b - c) ^^^ (c >>> 43)
  let b := (b - c - a) ^^^ (a <<< 9)
  let c := (c - a - b) ^^^ (b >>> 8)
  let a := (a - b - c) ^^^ (c >>> 38)
  let b := (b - c - a) ^^^ (a <<< 23)
  let c := (c - a - b) ^^^ (b >>> 5)
  let a := (a - b - c) ^^^ (c >>> 35)
  let b := (b - c - a) ^^^ (a <<< 49)
  let c := (c - a - b) ^^^ (b >>> 11)
  let a := (a - b - c) ^^^ (c >>> 12)
  let b := (b - c - a) ^^^ (a <<< 18)
  let c := (c - a - b) ^^^ (b >>> 22)
  (a, b, c)

/-- The loop of `hashb` over the words of a key, and what it does with those that are left. -/
def hashbLoop (length : UInt64) : List UInt64 → UInt64 → UInt64 → UInt64 → UInt64
  | x :: y :: z :: rest, a, b, c =>
    let m := mix64 (a + x) (b + y) (c + z)
    hashbLoop length rest m.1 m.2.1 m.2.2
  | [x, y], a, b, c => (mix64 (a + x) (b + y) (c + length)).2.2
  | [x], a, b, c => (mix64 (a + x) b (c + length)).2.2
  | [], a, b, c => (mix64 a b (c + length)).2.2

/-- `hashb`, for a key of whole words. -/
def hashb (words : List UInt64) (level : UInt64) : UInt64 :=
  hashbLoop (8 * UInt64.ofNat words.length) words level level 0x9e3779b97f4a7c13

/-- The values of `TRX_OP` and `TRX_OP_LAST`. -/
def TrxMark.code : TrxMark → ℕ
  | plain => 0
  | op => 1
  | opLast => 2

/-- A record in memory, without `bracket_id`, `raw` and `mlo_dl`, which are 0. -/
def LogRec.words (rec : LogRec) : List UInt64 :=
  [rec.syndrome + (rec.deleted.toNat + 4 * rec.trx.code + 16 * rec.blocks) * 2 ^ 16 +
      rec.rbucket * 2 ^ 32,
    rec.mloBlkOffset, rec.mloOldOffset + rec.cntrId * 2 ^ 48, rec.seqno, rec.targetSeqno, 0,
    rec.pass * 2 ^ 24, 0].map UInt64.ofNat

/-- A page in memory: the header is as large as a record. -/
def LogPage.words (page : LogPage) : List UInt64 :=
  [page.eyeCatcher + page.version * 2 ^ 32, page.lsn, page.checksum, 0, 0, 0, 0, 0].map
      UInt64.ofNat ++ page.recs.flatMap LogRec.words

/-- The checksum is seeded with the LSN and computed with the field itself set to 0. -/
def LogPage.computed (page : LogPage) : ℕ :=
  (hashb { page with checksum := 0 }.words (UInt64.ofNat page.lsn)).toNat

section

variable (cfg : Config)

/-- `lr->pass = state->pass` -/
def LogRec.mark (pass : ℕ) (rec : LogRec) : LogRec := { rec with pass }

/-- The page as it stands in the cache once its records have been handed out. -/
def LogPage.mark (pass : ℕ) (page : LogPage) : LogPage :=
  { page with recs := page.recs.map (LogRec.mark pass) }

/-- What a reading of a log gives: the cached pages it leaves, the records, the last LSN. -/
structure Reading where
  pages : List LogPage
  recs : List LogRec
  highLSN : ℕ
  deriving DecidableEq

/-- The page loop of `process_log`, without the filters. The records are marked in the cache;
a page with a wrong checksum is wiped there and ends the log. `none` is an abort. -/
def readPages (pass : ℕ) : ℕ → List LogPage → Option Reading
  | prevLSN, [] => some ⟨[], [], prevLSN⟩
  | prevLSN, page :: rest =>
    if page.checksum = 0 then
      if page.lsn = 0 ∧ page.eyeCatcher = 0 ∧ page.version = 0 then
        some ⟨page :: rest, [], prevLSN⟩
      else none
    else if page.computed ≠ page.checksum then some ⟨{} :: rest, [], prevLSN⟩
    else if page.eyeCatcher ≠ loghdrEyeCatcher ∨ page.version ≠ loghdrVersion then none
    else if page.lsn < prevLSN then some ⟨page :: rest, [], prevLSN⟩
    else if page.lsn ≠ prevLSN + 1 ∧ 0 < prevLSN then none
    else if page.lsn ≤ cfg.ckptLSN then some ⟨page :: rest, [], page.lsn⟩
    else (readPages pass page.lsn rest).map fun after =>
      { after with
        pages := page.mark pass :: after.pages
        recs := page.recs.map (LogRec.mark pass) ++ after.recs }

end

/-- An entry of the array that the held records are sorted in. -/
structure Lrring where
  logrec : LogRec
  ordinal : ℕ
  check : Bool

/-- `lrringcompar1`: by slab, deletions first, then by age. -/
def lrringcompar1 (r0 r1 : Lrring) : Ordering :=
  if r0.logrec.mloBlkOffset < r1.logrec.mloBlkOffset then .lt
  else if r0.logrec.mloBlkOffset > r1.logrec.mloBlkOffset then .gt
  else if r0.logrec.blocks ≠ 0 then
    if r1.logrec.blocks ≠ 0 then
      if r0.ordinal < r1.ordinal then .lt else if r0.ordinal > r1.ordinal then .gt else .eq
    else .gt
  else if r1.logrec.blocks ≠ 0 then .lt else .eq

/-- `lrringcompar2`: back to log order. -/
def lrringcompar2 (r0 r1 : Lrring) : Ordering := if r0.ordinal < r1.ordinal then .lt else .gt

/-- Only the last of the entries with one slab keeps its mark. -/
def uncheckOlder : List Lrring → List Lrring
  | r0 :: r1 :: rest =>
    (if r0.logrec.mloBlkOffset = r1.logrec.mloBlkOffset then { r0 with check := false } else r0) ::
      uncheckOlder (r1 :: rest)
  | short => short

/-- The held records in log order, marked for verification. -/
def lrring (held : List LogRec) : List Lrring :=
  let entries := held.zipIdx.map fun (logrec, ordinal) => (⟨logrec, ordinal, true⟩ : Lrring)
  let bySlab := entries.mergeSort fun r0 r1 => decide (lrringcompar1 r1 r0 ≠ .lt)
  (uncheckOlder bySlab).mergeSort fun r0 r1 => decide (lrringcompar2 r1 r0 ≠ .lt)

/-- The verification loop: the records up to the first one whose slab is damaged, and the
sequence number of that one. -/
def verifyRing (intact : LogRec → Bool) : List Lrring → List LogRec × Option ℕ
  | [] => ([], none)
  | r :: rest =>
    if r.logrec.blocks ≠ 0 ∧ r.check = true ∧ intact r.logrec = false then ([], some r.logrec.seqno)
    else (r.logrec :: (verifyRing intact rest).1, (verifyRing intact rest).2)

/-- `badstate`, from 0 to 8. -/
inductive BadState where
  /-- no corruption processing -/
  | off
  /-- first log, first pass: operate ring A -/
  | ringA
  /-- first log, later passes: the record precedes ring A -/
  | replayA
  /-- first log, later passes: the record is held in ring A -/
  | heldA
  /-- last log, first pass: operate ring B -/
  | ringB
  /-- last log, later passes: ring A is still to be emitted -/
  | emitA
  /-- last log, later passes: pass the record -/
  | passing
  /-- last log, later passes: the record precedes the bad one -/
  | precedesBad
  /-- last log, later passes: the bad record was reached -/
  | reachedBad
  deriving DecidableEq

/-- The state of the `cs` filter. -/
structure CsState where
  badstate : BadState
  badseqno : ℕ
  badringa : Ring LogRec
  badringb : Ring LogRec

/-- `filter_cs_initialize` -/
def filterCsInitialize (cfg : Config) : CsState where
  badstate := if cfg.chksumObject then .ringA else .off
  badseqno := 0
  badringa := ⟨cfg.ringSize, 0, 0, fun _ => {}⟩
  badringb := ⟨cfg.ringSize, 0, 0, fun _ => {}⟩

/-- `filter_cs_apply_logrec`: the next state and the records handed on. -/
def filterCsApplyLogrec (cs : CsState) (rec : LogRec) : CsState × List LogRec :=
  match cs.badstate with
  | .off => (cs, [rec])
  | .ringA =>
    match cs.badringa.add rec with
    | (ring, none) => ({ cs with badringa := ring }, [])
    | (ring, some old) =>
      ({ cs with
          badringa := ring
          badseqno := if old.seqno ≠ 0 then old.seqno else cs.badseqno }, [old])
  | .replayA =>
    if rec.seqno ≠ 0 ∧ rec.seqno = cs.badseqno then ({ cs with badstate := .heldA }, [rec])
    else (cs, [rec])
  | .heldA => (cs, [])
  | .ringB =>
    match cs.badringb.add rec with
    | (ring, none) => ({ cs with badringb := ring }, [])
    | (ring, some old) => ({ cs with badringb := ring }, [old])
  | .emitA => ({ cs with badstate := .passing }, cs.badringa.toList ++ [rec])
  | .passing => (cs, [rec])
  | .precedesBad =>
    if rec.seqno = cs.badseqno then ({ cs with badstate := .reachedBad }, []) else (cs, [rec])
  | .reachedBad => ({ cs with badringb := cs.badringa, badstate := .precedesBad }, [])

/-- `filter_cs_rewind_log`, without the filters behind it. -/
def filterCsRewindLog (cfg : Config) (cs : CsState) : CsState × List LogRec :=
  match cs.badstate with
  | .ringA => ({ cs with badstate := .replayA }, [])
  | .heldA => ({ cs with badstate := .replayA }, [])
  | .ringB =>
    match verifyRing cfg.intact (lrring cs.badringb.toList) with
    | (recs, none) => ({ cs with badstate := .emitA }, recs)
    | (recs, some seqno) => ({ cs with badstate := .precedesBad, badseqno := seqno }, recs)
  | .passing => ({ cs with badstate := .emitA }, [])
  | .reachedBad => ({ cs with badringb := cs.badringa }, [])
  | _ => (cs, [])

/-- `filter_cs_swap_log`, without the filters behind it. -/
def filterCsSwapLog (cs : CsState) : CsState :=
  match cs.badstate with
  | .ringA => { cs with badstate := .ringB }
  | .replayA => { cs with badringb := cs.badringa, badstate := .ringB }
  | .heldA => { cs with badringb := cs.badringa, badstate := .ringB }
  | .ringB => { cs with badstate := .emitA }
  | _ => cs

/-- `enum trx_rec`. Running out of memory aborts and has no value here. -/
inductive TrxRec where
  | okay
  | frag
  | badSeq
  deriving DecidableEq

/-- The state of the `it` filter. -/
structure ItState where
  trxbuf : List LogRec := []
  trxstatus : TrxRec := .okay

/-- `apply_log_record_cleanup` -/
def applyLogRecordCleanup : ItState := { trxbuf := [], trxstatus := .okay }

/-- `store_trx_logrec` -/
def storeTrxLogrec (it : ItState) (rec : LogRec) : ItState :=
  { it with trxbuf := it.trxbuf ++ [rec] }

/-- `filter_it_apply_logrec`: the next state and the records handed on. -/
def filterItApplyLogrec (it : ItState) (rec : LogRec) : ItState × List LogRec :=
  if rec.seqno ≠ 0 then
    match rec.trx with
    | .op => (if it.trxstatus = .okay then storeTrxLogrec it rec else it, [])
    | .opLast =>
      (applyLogRecordCleanup,
        if it.trxstatus = .okay then (storeTrxLogrec it rec).trxbuf else [])
    | .plain =>
      (if it.trxstatus ≠ .okay ∨ it.trxbuf ≠ [] then applyLogRecordCleanup else it, [rec])
  else (it, [rec])

/-- `filter_it_rewind_log`: a fragment is dropped while the `cs` filter is in state 4. -/
def filterItRewindLog (badstate : BadState) (it : ItState) : ItState :=
  let it :=
    if it.trxstatus = .okay ∧ it.trxbuf ≠ [] ∧ badstate = .ringB then
      { it with trxstatus := .frag }
    else it
  if it.trxstatus ≠ .okay then applyLogRecordCleanup else it

section

/-- `mcd_rec_flash_object_t` -/
structure FlashObject where
  osyndrome : ℕ := 0
  tombstone : Bool := false
  deleted : Bool := false
  checksum : ℕ := 0
  blocks : ℕ := 0
  obucket : ℕ := 0
  cntrId : ℕ := 0
  seqno : ℕ := 0
  deriving DecidableEq

/-- What `mp` works on: the chunk in memory, the range of offsets seen, the container's cas id. -/
structure MpState where
  objects : ℕ → FlashObject
  highObjOffset : ℕ
  lowObjOffset : ℕ
  casId : ℕ

/-- `~0uL` -/
def noOffset : ℕ := 2 ^ 64 - 1

/-- `~offset & 0x0000ffffffffffff` -/
def complement48 (offset : ℕ) : ℕ := 2 ^ 48 - 1 - offset

variable (cfg : Config)

/-- The offset lies in the chunk's range of the table. -/
def Config.InChunk (chunk offset : ℕ) : Prop :=
  cfg.startObj chunk ≤ offset ∧ offset ≤ cfg.startObj chunk + cfg.numObjs chunk - 1

instance (chunk offset : ℕ) : Decidable (cfg.InChunk chunk offset) :=
  inferInstanceAs (Decidable (_ ∧ _))

/-- A record without content, or with the container's cas id. -/
def LogRec.IsDummy (rec : LogRec) : Prop :=
  rec.syndrome = 0 ∧ rec.blocks = 0 ∧ rec.rbucket = 0 ∧ rec.seqno = 0 ∧ rec.mloOldOffset = 0

instance (rec : LogRec) : Decidable rec.IsDummy := inferInstanceAs (Decidable (_ ∧ _))

/-- `delete_object` at an offset, if it lies in the chunk; with the number of changes. -/
def deleteObject (chunk : ℕ) (objects : ℕ → FlashObject) (offset : ℕ) : (ℕ → FlashObject) × ℕ :=
  if cfg.InChunk chunk offset then
    (if cfg.replicated then objects else update objects offset {}, 1)
  else (objects, 0)

/-- The object a put record makes of the one in its place. -/
def LogRec.object (rec : LogRec) (object : FlashObject) : FlashObject :=
  { object with
    osyndrome := rec.syndrome
    deleted := rec.deleted
    blocks := rec.blocks
    obucket := rec.rbucket
    cntrId := rec.cntrId
    seqno := rec.seqno
    tombstone := false }

/-- The second round through `reapply`: the record made into a deletion of its old offset. -/
def reapplyOld (chunk : ℕ) (objects : ℕ → FlashObject) (rec : LogRec) : (ℕ → FlashObject) × ℕ :=
  if rec.mloOldOffset ≠ 0 then deleteObject cfg chunk objects (complement48 rec.mloOldOffset)
  else (objects, 0)

/-- `apply_log_record_mp` from `reapply` on, in recovery. -/
def applyToTable (chunk : ℕ) (objects : ℕ → FlashObject) (rec : LogRec) : (ℕ → FlashObject) × ℕ :=
  if cfg.InChunk chunk rec.mloBlkOffset then
    if rec.blocks = 0 then deleteObject cfg chunk objects rec.mloBlkOffset
    else
      let put := update objects rec.mloBlkOffset (rec.object (objects rec.mloBlkOffset))
      let old := reapplyOld cfg chunk put rec
      (old.1, old.2 + 1)
  else reapplyOld cfg chunk objects rec

/-- `high_obj_offset` and `low_obj_offset` take in an offset. -/
def MpState.see (mp : MpState) (offset : ℕ) : MpState :=
  { mp with
    highObjOffset := max mp.highObjOffset offset
    lowObjOffset := min mp.lowObjOffset offset }

/-- The range takes in both offsets of a record. -/
def MpState.seeRec (mp : MpState) (rec : LogRec) : MpState :=
  if rec.mloOldOffset ≠ 0 then (mp.see rec.mloBlkOffset).see (complement48 rec.mloOldOffset)
  else mp.see rec.mloBlkOffset

/-- `apply_log_record_mp` in recovery: the next state and the number of changes. -/
def applyLogRecordMp (chunk : ℕ) (mp : MpState) (rec : LogRec) : MpState × ℕ :=
  if rec.IsDummy then
    (if rec.mloBlkOffset = 0x0000ffffffffffff ∧ mp.casId < rec.targetSeqno then
      { mp with casId := rec.targetSeqno } else mp, 0)
  else
    let table := applyToTable cfg chunk mp.objects rec
    ({ mp.seeRec rec with objects := table.1 }, table.2)

end

variable (cfg : Config)

/-- The filters applied to the records of a log in turn, then rewound. -/
def filterCsLog (cs : CsState) (recs : List LogRec) : CsState × List LogRec :=
  let applied := feed filterCsApplyLogrec cs recs
  let rewound := filterCsRewindLog cfg applied.1
  (rewound.1, applied.2 ++ rewound.2)

/-- The `it` filter on what the `cs` filter hands on. -/
def filterItLog (it : ItState) (recs : List LogRec) : ItState × List LogRec :=
  feed filterItApplyLogrec it recs

/-- `mp` on what the `it` filter hands on. -/
def applyLogMp (chunk : ℕ) : MpState → List LogRec → MpState × ℕ
  | mp, [] => (mp, 0)
  | mp, rec :: rest =>
    let first := applyLogRecordMp cfg chunk mp rec
    let after := applyLogMp chunk first.1 rest
    (after.1, first.2 + after.2)

/-- The updater thread's state. `delivered` and `taken` record, per chunk, what the `cs` and the
`it` filter have handed on. -/
structure Updater where
  cs : CsState
  it : ItState
  mp : MpState
  pages : List LogPage
  highLSN : ℕ
  delivered : ℕ → List LogRec
  taken : ℕ → List LogRec

/-- No object that the log names falls in the chunk. -/
def Updater.outside (u : Updater) (chunk : ℕ) : Prop :=
  u.mp.highObjOffset < cfg.startObj chunk ∨
    (u.mp.lowObjOffset ≠ noOffset ∧
      cfg.startObj chunk + cfg.numObjs chunk - 1 < u.mp.lowObjOffset)

instance (u : Updater) (chunk : ℕ) : Decidable (u.outside cfg chunk) :=
  inferInstanceAs (Decidable (_ ∨ _))

/-- `process_log` returns without reading the log. -/
def Updater.PassesOver (u : Updater) (chunk : ℕ) : Prop :=
  (u.outside cfg chunk ∨ (0 < u.highLSN ∧ u.highLSN ≤ cfg.ckptLSN)) ∧ cfg.updateVerify = false

instance (u : Updater) (chunk : ℕ) : Decidable (u.PassesOver cfg chunk) :=
  inferInstanceAs (Decidable (_ ∧ _))

/-- `process_log`, and the table written back if a record was applied. -/
def processLog (pass chunk : ℕ) (u : Updater) : Option Updater :=
  if u.PassesOver cfg chunk then some u
  else
    (readPages cfg pass 0 u.pages).map fun reading =>
      let cs := filterCsLog cfg u.cs reading.recs
      let it := filterItLog u.it cs.2
      let mp := applyLogMp cfg chunk u.mp it.2
      { cs := cs.1
        it := filterItRewindLog cs.1.badstate it.1
        mp := if mp.2 = 0 then { mp.1 with objects := u.mp.objects } else mp.1
        pages := reading.pages
        highLSN := reading.highLSN
        delivered := update u.delivered chunk (u.delivered chunk ++ cs.2)
        taken := update u.taken chunk (u.taken chunk ++ it.2) }

/-- `process_log` for one chunk after the other. -/
def processChunks (pass : ℕ) : List ℕ → Updater → Option Updater
  | [], u => some u
  | chunk :: rest, u => (processLog cfg pass chunk u).bind (processChunks pass rest)

/-- The chunk loop over the old log. -/
def mergeOldLog : List ℕ → Updater → Option Updater
  | [], u => some u
  | chunk :: rest, u =>
    if u.outside cfg chunk ∧ cfg.updateVerify = false then
      -- `read_object_table` skips the chunk; nothing lies beyond it if the log ends below it
      if u.mp.highObjOffset < cfg.startObj chunk then some u else mergeOldLog rest u
    else (processLog cfg 1 chunk u).bind (mergeOldLog rest)

/-- The chunk loop over the current log reads every chunk. -/
def mergeCurrentLog (chunks : List ℕ) (u : Updater) : Option Updater :=
  processChunks cfg 2 chunks u

/-- The updater before it reads the old log. -/
def Updater.start (objects : ℕ → FlashObject) (casId : ℕ) (old : List LogPage) : Updater where
  cs := filterCsInitialize cfg
  it := {}
  mp := { objects, highObjOffset := 0, lowObjOffset := noOffset, casId }
  pages := old
  highLSN := 0
  delivered := fun _ => []
  taken := fun _ => []

/-- The updater turns to the current log. -/
def Updater.swapLog (u : Updater) (cur : List LogPage) : Updater :=
  { u with
    cs := filterCsSwapLog u.cs
    mp := { u.mp with highObjOffset := 0, lowObjOffset := noOffset }
    pages := cur
    highLSN := 0 }

/-- The updater in recovery, from the table and the pages of the two logs. -/
def updaterThread (objects : ℕ → FlashObject) (casId : ℕ) (old cur : List LogPage) :
    Option Updater :=
  (mergeOldLog cfg (List.range cfg.numChunks) (.start cfg objects casId old)).bind fun u =>
    mergeCurrentLog cfg (List.range cfg.numChunks) (u.swapLog cur)

end Zetascale.Recovery
