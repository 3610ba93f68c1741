import Zetascale.Recovery.Rereading

/-!
# Recovered transactions

The `it` filter parks the records of a transaction until its last record
arrives. The parking lot outlives a reading of the log, so a transaction that a
reading leaves open meets the records of the next one. This module says what the
records handed on do to the objects of a chunk, over all readings.
-/

namespace Zetascale.Recovery

open Function List Option LogRec

/-- The parking lot between two records: no error is pending. -/
def parked (trxbuf : List LogRec) : ItState := { trxbuf, trxstatus := .okay }

variable {rec : LogRec} {recs : List LogRec}

/-- When the `it` filter is rewound, the `cs` filter has left state 4. -/
theorem filterCsRewindLog_ne_ringB (cfg : Config) (cs : CsState) :
    (filterCsRewindLog cfg cs).1.badstate ≠ .ringB := by
  unfold filterCsRewindLog
  rcases state : cs.badstate with _ | _ | _ | _ | _ | _ | _ | _ | _ <;> simp only [state, ne_eq] <;>
    first
      | decide
      | split <;> simp

/-- So the rewind drops no fragment. -/
theorem filterItRewindLog_parked (cfg : Config) (cs : CsState) (recs trxbuf : List LogRec) :
    filterItRewindLog (filterCsLog cfg cs recs).1.badstate (parked trxbuf) = parked trxbuf := by
  have left : (filterCsLog cfg cs recs).1.badstate ≠ .ringB := filterCsRewindLog_ne_ringB cfg _
  simp [filterItRewindLog, parked, left]

variable {chunk offset pass : ℕ} {u : Updater} {mp : MpState} {chunks : List ℕ}
  {old cur : List LogPage} {reading : Reading}

section

variable (cfg : Config) {objects objects' : ℕ → FlashObject}

/-- A change of the table for one chunk: objects outside of the chunk stay, an object depends on
nothing but itself, and no change is counted only if there was none. -/
structure ChunkUpdate (chunk : ℕ) (f : (ℕ → FlashObject) → (ℕ → FlashObject) × ℕ) : Prop where
  outside : ∀ objects offset, ¬cfg.InChunk chunk offset → (f objects).1 offset = objects offset
  alone : ∀ objects objects' offset, objects offset = objects' offset →
    (f objects).1 offset = (f objects').1 offset
  counted : ∀ objects, (f objects).2 = 0 → (f objects).1 = objects

theorem ChunkUpdate.idle : ChunkUpdate cfg chunk fun objects => (objects, 0) :=
  ⟨fun _ _ _ => rfl, fun _ _ _ same => same, fun _ _ => rfl⟩

theorem ChunkUpdate.single (inside : cfg.InChunk chunk offset)
    (change : FlashObject → FlashObject) : ChunkUpdate cfg chunk fun objects =>
      (update objects offset (change (objects offset)), 1) where
  outside objects other out := update_of_ne (fun same => out (by rwa [same])) _ _
  alone objects objects' other same := by
    by_cases here : other = offset
    · subst here
      simp [same]
    · simp [update_of_ne here, same]
  counted _ zero := (one_ne_zero zero).elim

theorem ChunkUpdate.andThen {f g : (ℕ → FlashObject) → (ℕ → FlashObject) × ℕ}
    (first : ChunkUpdate cfg chunk f) (second : ChunkUpdate cfg chunk g) :
    ChunkUpdate cfg chunk fun objects => ((g (f objects).1).1, (g (f objects).1).2 + (f objects).2) where
  outside objects offset out := by rw [second.outside _ _ out, first.outside _ _ out]
  alone objects objects' offset same := second.alone _ _ _ (first.alone _ _ _ same)
  counted objects zero := by
    obtain ⟨none, none'⟩ := Nat.add_eq_zero_iff.mp zero
    exact (second.counted _ none).trans (first.counted _ none')

theorem ChunkUpdate.deleteObject (offset : ℕ) :
    ChunkUpdate cfg chunk fun objects => deleteObject cfg chunk objects offset := by
  by_cases inside : cfg.InChunk chunk offset
  · simp only [Recovery.deleteObject, if_pos inside]
    by_cases kept : cfg.replicated
    · simp only [kept, if_true]
      exact ⟨fun _ _ _ => rfl, fun _ _ _ same => same, nofun⟩
    · simp only [kept]
      exact .single cfg inside fun _ => {}
  · simp only [Recovery.deleteObject, if_neg inside]
    exact .idle cfg

theorem ChunkUpdate.applyToTable (rec : LogRec) :
    ChunkUpdate cfg chunk fun objects => applyToTable cfg chunk objects rec := by
  have old : ChunkUpdate cfg chunk fun objects => reapplyOld cfg chunk objects rec := by
    unfold reapplyOld
    split
    · exact .deleteObject cfg _
    · exact .idle cfg
  unfold Recovery.applyToTable
  split
  case isTrue inside =>
    split
    · exact .deleteObject cfg _
    · exact .andThen cfg (.single cfg inside rec.object) old
  case isFalse => exact old

/-- The table after the given records. -/
def tableAfter (chunk : ℕ) (objects : ℕ → FlashObject) (recs : List LogRec) : ℕ → FlashObject :=
  recs.foldl (fun objects rec =>
    if rec.IsDummy then objects else (applyToTable cfg chunk objects rec).1) objects

theorem tableAfter_cons (rec : LogRec) (recs : List LogRec) :
    tableAfter cfg chunk objects (rec :: recs) = tableAfter cfg chunk
      (if rec.IsDummy then objects else (applyToTable cfg chunk objects rec).1) recs := rfl

theorem tableAfter_outside (out : ¬cfg.InChunk chunk offset) (recs : List LogRec) :
    tableAfter cfg chunk objects recs offset = objects offset := by
  induction recs generalizing objects with
  | nil => rfl
  | cons rec rest ih =>
    rw [tableAfter_cons, ih]
    split
    · rfl
    · exact (ChunkUpdate.applyToTable cfg rec).outside _ _ out

theorem tableAfter_alone (same : objects offset = objects' offset) (recs : List LogRec) :
    tableAfter cfg chunk objects recs offset = tableAfter cfg chunk objects' recs offset := by
  induction recs generalizing objects objects' with
  | nil => exact same
  | cons rec rest ih =>
    rw [tableAfter_cons, tableAfter_cons]
    refine ih ?_
    split
    · exact same
    · exact (ChunkUpdate.applyToTable cfg rec).alone _ _ _ same

theorem applyLogMp_objects (mp : MpState) (recs : List LogRec) :
    (applyLogMp cfg chunk mp recs).1.objects = tableAfter cfg chunk mp.objects recs := by
  induction recs generalizing mp with
  | nil => rfl
  | cons rec rest ih =>
    rw [applyLogMp, ih]
    simp only [applyLogRecordMp, tableAfter, foldl_cons]
    split_ifs <;> rfl

theorem applyLogMp_counted (none : (applyLogMp cfg chunk mp recs).2 = 0) :
    (applyLogMp cfg chunk mp recs).1.objects = mp.objects := by
  induction recs generalizing mp with
  | nil => rfl
  | cons rec rest ih =>
    rw [applyLogMp] at none ⊢
    obtain ⟨noneFirst, noneRest⟩ := Nat.add_eq_zero_iff.mp none
    rw [ih noneRest]
    simp only [applyLogRecordMp] at noneFirst ⊢
    split_ifs at noneFirst ⊢
    · rfl
    · rfl
    · exact (ChunkUpdate.applyToTable cfg rec).counted _ noneFirst

theorem Config.inChunk_iff {cfg : Config} (lt : chunk < cfg.numChunks) :
    cfg.InChunk chunk offset ↔ offset < cfg.tableObjs ∧ offset / cfg.chunkObjs = chunk := by
  have pos := cfg.chunkObjs_pos
  have within := (Nat.le_div_iff_mul_le pos).mp (Nat.succ_le_of_lt lt)
  rw [Nat.succ_mul] at within
  rw [Nat.div_eq_iff pos]
  simp only [InChunk, startObj, numObjs]
  omega

theorem Config.InChunk.unique {cfg : Config} {chunk' : ℕ}
    (inside : cfg.InChunk chunk offset) (inside' : cfg.InChunk chunk' offset)
    (lt : chunk < cfg.numChunks) (lt' : chunk' < cfg.numChunks) : chunk = chunk' :=
  ((inChunk_iff lt).mp inside).2.symm.trans ((inChunk_iff lt').mp inside').2

/-- The table holds what the records taken for each chunk make of it. -/
def Reflects (objects : ℕ → FlashObject) (u : Updater) : Prop :=
  ∀ chunk < cfg.numChunks, ∀ offset, cfg.InChunk chunk offset →
    u.mp.objects offset = tableAfter cfg chunk objects (u.taken chunk) offset

variable {cfg}

theorem written_objects (cfg : Config) (chunk : ℕ) (mp : MpState) (recs : List LogRec) :
    (if (applyLogMp cfg chunk mp recs).2 = 0 then
      { (applyLogMp cfg chunk mp recs).1 with objects := mp.objects }
      else (applyLogMp cfg chunk mp recs).1).objects = tableAfter cfg chunk mp.objects recs := by
  rw [← applyLogMp_objects]
  split
  · exact (applyLogMp_counted cfg ‹_›).symm
  · rfl

/-- One chunk's reading changes the table by the records it takes, written back or not. -/
theorem Reflects.processLog {next : Updater} (reflects : Reflects cfg objects u)
    (lt : chunk < cfg.numChunks) (done : processLog cfg pass chunk u = some next) :
    Reflects cfg objects next := by
  by_cases skipped : u.PassesOver cfg chunk
  · rw [Recovery.processLog, if_pos skipped, some.injEq] at done
    exact done ▸ reflects
  have readable : ∃ reading, readPages cfg pass 0 u.pages = some reading := by
    rw [Recovery.processLog, if_neg skipped, map_eq_some_iff] at done
    exact done.imp fun _ read => read.1
  obtain ⟨reading, read⟩ := readable
  obtain ⟨after, done', _, _, _, _, _, taken, mp⟩ := processLog_read skipped read rfl rfl
  have same : next = after := some.inj (done.symm.trans done')
  subst same
  set trxs := (filterItLog u.it (filterCsLog cfg u.cs reading.recs).2).2
  intro other otherLt offset inside
  rw [mp, written_objects, taken]
  by_cases same : other = chunk
  · subst same
    rw [update_self, tableAfter, tableAfter, foldl_append]
    exact tableAfter_alone cfg (reflects other otherLt offset inside) trxs
  · rw [update_of_ne same, tableAfter_outside, reflects other otherLt offset inside]
    exact fun inside' => same (inside.unique inside' otherLt lt)

theorem Reflects.processChunks {final : Updater}
    (reflects : Reflects cfg objects u) (within : ∀ chunk ∈ chunks, chunk < cfg.numChunks)
    (done : processChunks cfg pass chunks u = some final) : Reflects cfg objects final := by
  induction chunks generalizing u with
  | nil => exact some.inj done ▸ reflects
  | cons chunk rest ih =>
    obtain ⟨next, first, after⟩ := bind_eq_some_iff.mp done
    have next := reflects.processLog (within chunk mem_cons_self) first
    exact ih next (fun c mem => within c (mem_cons_of_mem _ mem)) after

/-- Recovery leaves a table that reflects the records taken for each chunk. -/
theorem updaterThread_reflects {casId : ℕ}
    (done : updaterThread cfg objects casId old cur = some u) : Reflects cfg objects u := by
  obtain ⟨middle, merged, after⟩ := bind_eq_some_iff.mp done
  have within : ∀ chunk ∈ range cfg.numChunks, chunk < cfg.numChunks :=
    fun _ mem => mem_range.mp mem
  have start : Reflects cfg objects (.start cfg objects casId old) := fun _ _ _ _ => rfl
  rw [mergeOldLog_eq pairwise_lt_range] at merged
  have merged : Reflects cfg objects middle := start.processChunks within merged
  have swapped : Reflects cfg objects (middle.swapLog cur) := merged
  exact swapped.processChunks within after

end

section

variable (cfg : Config)

/-- A record takes effect in a chunk that holds its offset or its old offset. -/
def Touches (chunk : ℕ) (rec : LogRec) : Prop :=
  cfg.InChunk chunk rec.mloBlkOffset ∨
    (rec.mloOldOffset ≠ 0 ∧ cfg.InChunk chunk (complement48 rec.mloOldOffset))

/-- An offset lies in the range of offsets seen so far. -/
def MpState.Covers (mp : MpState) (offset : ℕ) : Prop :=
  offset ≤ mp.highObjOffset ∧ mp.lowObjOffset ≤ offset

open MpState

/-- The offsets of a record lie in the range seen so far. -/
def MpState.Saw (mp : MpState) (rec : LogRec) : Prop :=
  mp.Covers rec.mloBlkOffset ∧ (rec.mloOldOffset ≠ 0 → mp.Covers (complement48 rec.mloOldOffset))

theorem MpState.Saw.mono {mp' : MpState} (wider : ∀ offset, mp.Covers offset → mp'.Covers offset)
    (saw : mp.Saw rec) : mp'.Saw rec :=
  ⟨wider _ saw.1, fun old => wider _ (saw.2 old)⟩

theorem applyLogRecordMp_covers (rec : LogRec) (covers : mp.Covers offset) :
    (applyLogRecordMp cfg chunk mp rec).1.Covers offset := by
  obtain ⟨below, above⟩ := covers
  unfold applyLogRecordMp seeRec see
  split_ifs <;> simp only [MpState.Covers] <;> omega

theorem applyLogRecordMp_saw (real : ¬rec.IsDummy) :
    (applyLogRecordMp cfg chunk mp rec).1.Saw rec := by
  rw [applyLogRecordMp, if_neg real]
  unfold seeRec see
  split_ifs with old <;> simp only [MpState.Saw, MpState.Covers] <;> omega

theorem applyLogMp_covers (recs : List LogRec) (covers : mp.Covers offset) :
    (applyLogMp cfg chunk mp recs).1.Covers offset := by
  induction recs generalizing mp with
  | nil => exact covers
  | cons rec rest ih => exact ih (applyLogRecordMp_covers cfg rec covers)

/-- The range takes in all records that are applied. -/
theorem applyLogMp_saw (mem : rec ∈ recs) (real : ¬rec.IsDummy) :
    (applyLogMp cfg chunk mp recs).1.Saw rec := by
  induction recs generalizing mp with
  | nil => exact (not_mem_nil mem).elim
  | cons first rest ih =>
    rcases mem_cons.mp mem with rfl | mem
    · exact (applyLogRecordMp_saw cfg real).mono fun _ => applyLogMp_covers cfg rest
    · exact ih mem

variable {cfg}

theorem Updater.outside.not_touches (outside : u.outside cfg chunk)
    (saw : u.mp.Saw rec) : ¬Touches cfg chunk rec := by
  obtain ⟨⟨below, above⟩, old⟩ := saw
  rintro (⟨low, high⟩ | ⟨some, low, high⟩)
  · rcases outside with beyond | ⟨_, before⟩ <;> omega
  · obtain ⟨below, above⟩ := old some
    rcases outside with beyond | ⟨_, before⟩ <;> omega

end

theorem readPages_recs_eq_nil {cfg : Config} {pages : List LogPage}
    (read : readPages cfg pass 0 pages = some reading) (applied : reading.highLSN ≤ cfg.ckptLSN) :
    reading.recs = [] := by
  cases pages with
  | nil => exact some.inj read ▸ rfl
  | cons page rest =>
    rcases readPages_cons read with ⟨-, behind, after, readRest, rfl, -⟩ | ⟨-, none, -⟩
    · exact absurd (readPages_highLSN readRest behind) (not_lt.mpr applied)
    · exact none

/-- A put of one block in a transaction. -/
def trxRec (trx : TrxMark) (seqno offset : ℕ) : LogRec := { putRec seqno offset with trx }

/-- A transaction with one record in either chunk: the first one is recovered, the second one lost,
as the page is spoilt by the marks when the second chunk is read. -/
theorem half_a_transaction_recovered :
    let cur := pageOf 1 9975631935281129007 [trxRec .op 1 3, trxRec .opLast 2 9]
    let log := (cur.mark 2).recs
    (readPages twoChunks 2 0 [cur]).map Reading.recs = some log ∧
      (updaterThread twoChunks (fun _ => {}) 0 [] [cur]).map
        (fun u => ((u.mp.objects 3).seqno, (u.mp.objects 9).seqno)) = some (1, 0) := by
  decide +kernel

/-- An unfinished transaction that the first chunk's reading leaves parked is applied to the second
chunk, with the first transaction that the next reading finishes. -/
theorem leftover_takes_effect :
    let cur := (pageOf 1 14009448166730936542
      [trxRec .op 1 9, trxRec .opLast 2 11, trxRec .op 3 10]).mark 2
    (readPages twoChunks 2 0 [cur]).map Reading.recs = some cur.recs ∧
      (updaterThread twoChunks (fun _ => {}) 0 [] [cur]).map (fun u => (u.mp.objects 10).seqno) =
        some 3 := by
  decide +kernel

end Zetascale.Recovery
