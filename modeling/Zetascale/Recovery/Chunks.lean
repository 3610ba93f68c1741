import Zetascale.Recovery.Transactions

/-!
# Merging a log chunk by chunk

The updater applies a log to one chunk of the object table after the other, and
leaves out chunks in which nothing can fall. Without transactions, and without
the verification of slabs, that is to be the same as applying the records to the
whole table.
-/

namespace Zetascale.Recovery

open Function List

variable (cfg : Config) {chunk offset : ℕ} {rec : LogRec} {recs : List LogRec}
  {objects objects' : ℕ → FlashObject}

/-- The table in one chunk. -/
def Config.whole : Config :=
  { cfg with chunkObjs := cfg.tableObjs + 1, chunkObjs_pos := Nat.succ_pos _ }

theorem Config.inChunk_whole (inTable : 0 < cfg.tableObjs) :
    cfg.whole.InChunk 0 offset ↔ offset < cfg.tableObjs := by
  simp only [InChunk, startObj, numObjs, whole]
  omega

theorem Config.exists_chunk (lt : offset < cfg.tableObjs) :
    ∃ chunk < cfg.numChunks, cfg.InChunk chunk offset := by
  have number : offset / cfg.chunkObjs < cfg.numChunks := by
    rw [numChunks, Nat.lt_iff_add_one_le, ← Nat.add_div_right _ cfg.chunkObjs_pos]
    exact Nat.div_le_div_right (by omega)
  exact ⟨_, number, (inChunk_iff number).mpr ⟨lt, rfl⟩⟩

/-! ## What a record does to one object -/

/-- The record puts an object at the offset. -/
def LogRec.Puts (rec : LogRec) (offset : ℕ) : Prop := rec.mloBlkOffset = offset ∧ rec.blocks ≠ 0

/-- The record, applied for a chunk, deletes the object at the offset: by its own offset, or by the
old one, which a delete record comes to only if its own offset lies elsewhere. -/
def Config.Erases (chunk : ℕ) (rec : LogRec) (offset : ℕ) : Prop :=
  cfg.replicated = false ∧
    ((rec.mloBlkOffset = offset ∧ rec.blocks = 0) ∨
      (rec.mloOldOffset ≠ 0 ∧ complement48 rec.mloOldOffset = offset ∧
        (rec.blocks ≠ 0 ∨ ¬cfg.InChunk chunk rec.mloBlkOffset)))

instance (rec : LogRec) (offset : ℕ) : Decidable (rec.Puts offset) :=
  inferInstanceAs (Decidable (_ ∧ _))

instance (chunk : ℕ) (rec : LogRec) (offset : ℕ) : Decidable (cfg.Erases chunk rec offset) :=
  inferInstanceAs (Decidable (_ ∧ _))

theorem deleteObject_at (inside : cfg.InChunk chunk offset) (other : ℕ) :
    (deleteObject cfg chunk objects other).1 offset =
      if cfg.replicated = false ∧ other = offset then {} else objects offset := by
  unfold deleteObject
  by_cases here : other = offset
  · subst here
    rw [if_pos inside]
    cases cfg.replicated <;> simp
  · simp only [here, and_false, if_false]
    split_ifs
    · rfl
    · exact update_of_ne (Ne.symm here) ..
    · rfl

theorem reapplyOld_at (inside : cfg.InChunk chunk offset) :
    (reapplyOld cfg chunk objects rec).1 offset =
      if cfg.replicated = false ∧ rec.mloOldOffset ≠ 0 ∧ complement48 rec.mloOldOffset = offset
        then {} else objects offset := by
  unfold reapplyOld
  by_cases old : rec.mloOldOffset ≠ 0
  · rw [if_pos old, deleteObject_at cfg inside]
    simp [old]
  · rw [if_neg old, if_neg fun both => old both.2.1]

/-- A record applied for a chunk, at one of its objects. -/
theorem applyToTable_at (inside : cfg.InChunk chunk offset) :
    (applyToTable cfg chunk objects rec).1 offset =
      if cfg.Erases chunk rec offset then {}
      else if rec.Puts offset then rec.object (objects offset) else objects offset := by
  unfold applyToTable Config.Erases LogRec.Puts
  by_cases own : cfg.InChunk chunk rec.mloBlkOffset
  · rw [if_pos own]
    by_cases delete : rec.blocks = 0
    · rw [if_pos delete, deleteObject_at cfg inside]
      simp [delete, own]
    · rw [if_neg delete, reapplyOld_at cfg inside]
      by_cases here : rec.mloBlkOffset = offset
      · subst here
        simp [delete]
      · simp [delete, here, update_of_ne (Ne.symm here)]
  · have elsewhere : rec.mloBlkOffset ≠ offset := fun same => own (same ▸ inside)
    rw [if_neg own, reapplyOld_at cfg inside]
    simp [own, elsewhere]

/-- A delete record has its old offset in the chunk only if its own offset lies there too, or behind
the table; a put may have its old offset anywhere. -/
def Config.OneChunk (chunk : ℕ) (rec : LogRec) : Prop :=
  cfg.replicated = false → rec.blocks = 0 → rec.mloOldOffset ≠ 0 →
    cfg.InChunk chunk (complement48 rec.mloOldOffset) → rec.mloBlkOffset < cfg.tableObjs →
      cfg.InChunk chunk rec.mloBlkOffset

instance (chunk : ℕ) (rec : LogRec) : Decidable (cfg.OneChunk chunk rec) :=
  inferInstanceAs (Decidable (_ → _))

theorem applyToTable_whole (lt : chunk < cfg.numChunks) (inside : cfg.InChunk chunk offset)
    (oneChunk : cfg.OneChunk chunk rec) : (applyToTable cfg chunk objects rec).1 offset =
      (applyToTable cfg.whole 0 objects rec).1 offset := by
  have below := ((Config.inChunk_iff lt).mp inside).1
  have whole : ∀ other, cfg.whole.InChunk 0 other ↔ other < cfg.tableObjs :=
    fun _ => cfg.inChunk_whole (Nat.zero_lt_of_lt below)
  have same : cfg.Erases chunk rec offset ↔ cfg.whole.Erases 0 rec offset := by
    unfold Config.Erases
    rw [whole]
    refine and_congr_right fun alone => or_congr_right (and_congr_right fun old =>
      and_congr_right fun here => ?_)
    by_cases delete : rec.blocks = 0
    · simp only [delete, ne_eq, not_true, false_or]
      exact not_congr ⟨fun own => ((Config.inChunk_iff lt).mp own).1,
        oneChunk alone delete old (here ▸ inside)⟩
    · simp [delete]
  rw [applyToTable_at cfg inside, applyToTable_at cfg.whole ((whole offset).mpr below)]
  simp only [same]

/-! ## What a log does to one object -/

/-- An object that no record puts or deletes stays. -/
theorem tableAfter_unchanged (inside : cfg.InChunk chunk offset)
    (kept : ∀ rec ∈ recs, ¬rec.IsDummy → ¬rec.Puts offset ∧ ¬cfg.Erases chunk rec offset) :
    tableAfter cfg chunk objects recs offset = objects offset := by
  induction recs generalizing objects with
  | nil => rfl
  | cons rec rest ih =>
    obtain ⟨here, later⟩ := forall_mem_cons.mp kept
    rw [tableAfter_cons, ih later]
    split_ifs with dummy
    · rfl
    · rw [applyToTable_at cfg inside, if_neg (here dummy).2, if_neg (here dummy).1]

theorem tableAfter_whole (lt : chunk < cfg.numChunks) (inside : cfg.InChunk chunk offset)
    (oneChunk : ∀ rec ∈ recs, cfg.OneChunk chunk rec) (same : objects offset = objects' offset) :
    tableAfter cfg chunk objects recs offset = tableAfter cfg.whole 0 objects' recs offset := by
  induction recs generalizing objects objects' with
  | nil => exact same
  | cons rec rest ih =>
    obtain ⟨here, later⟩ := forall_mem_cons.mp oneChunk
    rw [tableAfter_cons, tableAfter_cons]
    refine ih later ?_
    split_ifs
    · exact same
    · rw [applyToTable_whole cfg lt inside here]
      exact (ChunkUpdate.applyToTable cfg.whole rec).alone _ _ _ same

/-- The offsets that a record names. -/
def LogRec.offsets (rec : LogRec) : List ℕ :=
  if rec.IsDummy then []
  else rec.mloBlkOffset :: if rec.mloOldOffset ≠ 0 then [complement48 rec.mloOldOffset] else []

theorem LogRec.mem_offsets (real : ¬rec.IsDummy)
    (changes : rec.Puts offset ∨ cfg.Erases chunk rec offset) : offset ∈ rec.offsets := by
  rw [offsets, if_neg real]
  rcases changes with ⟨here, -⟩ | ⟨-, ⟨here, -⟩ | ⟨old, here, -⟩⟩
  · simp [here]
  · simp [here]
  · simp [old, here]

theorem tableAfter_unnamed (inside : cfg.InChunk chunk offset)
    (unnamed : offset ∉ recs.flatMap LogRec.offsets) :
    tableAfter cfg chunk objects recs offset = objects offset := by
  refine tableAfter_unchanged cfg inside fun rec mem real => not_or.mp fun changes => unnamed ?_
  exact mem_flatMap.mpr ⟨rec, mem, LogRec.mem_offsets cfg real changes⟩

/-- Where one record names the offset, the log does to the object what this record does. -/
theorem tableAfter_only (inside : cfg.InChunk chunk offset) (mem : rec ∈ recs)
    (real : ¬rec.IsDummy) (named : offset ∈ rec.offsets)
    (once : (recs.flatMap LogRec.offsets).Nodup) :
    tableAfter cfg chunk objects recs offset = (applyToTable cfg chunk objects rec).1 offset := by
  obtain ⟨before, after, rfl⟩ := append_of_mem mem
  rw [flatMap_append, flatMap_cons, nodup_append', nodup_append'] at once
  obtain ⟨-, ⟨-, -, later⟩, earlier⟩ := once
  have first : tableAfter cfg chunk objects before offset = objects offset :=
    tableAfter_unnamed cfg inside fun there => earlier there (mem_append_left _ named)
  rw [tableAfter, foldl_append, foldl_cons, if_neg real]
  refine (tableAfter_unnamed cfg inside fun there => later named there).trans ?_
  exact (ChunkUpdate.applyToTable cfg rec).alone _ _ _ first

/-! ## What the loop over the chunks makes of the table -/

theorem tableAfter_untouched (apart : ∀ rec ∈ recs, ¬rec.IsDummy → ¬Touches cfg chunk rec)
    (inside : cfg.InChunk chunk offset) :
    tableAfter cfg chunk objects recs offset = objects offset := by
  refine tableAfter_unchanged cfg inside fun rec mem real => ?_
  obtain ⟨own, old⟩ := not_or.mp (apart rec mem real)
  refine ⟨fun puts => own (puts.1 ▸ inside), ?_⟩
  rintro ⟨-, ⟨here, -⟩ | ⟨some, here, -⟩⟩
  · exact own (here ▸ inside)
  · exact old ⟨some, here ▸ inside⟩

variable {u : Updater} {reading again : Reading}

/-- The updater once it has read the log; `again` is what it reads from then on. -/
structure HasRead (again : Reading) (u : Updater) : Prop where
  cs : u.cs.badstate = .off
  it : u.it = {}
  cached : readPages cfg 1 0 u.pages = some again
  saw : ∀ rec ∈ again.recs, ¬rec.IsDummy → u.mp.Saw rec
  behind : u.highLSN ≤ cfg.ckptLSN → again.recs = []

theorem processLog_plain (cs : u.cs.badstate = .off) (it : u.it = {})
    (plain : ∀ rec ∈ reading.recs, rec.trx = .plain) (reads : ¬u.PassesOver cfg chunk)
    (read : readPages cfg 1 0 u.pages = some reading)
    (cached : readPages cfg 1 0 reading.pages = some again) (start : again.recs <+: reading.recs) :
    ∃ next, processLog cfg 1 chunk u = some next ∧ HasRead cfg again next ∧
      next.taken = update u.taken chunk (u.taken chunk ++ reading.recs) := by
  have filtered : filterCsLog cfg u.cs reading.recs = (u.cs, reading.recs) := filterCsLog_off cs _
  have stored : filterItLog u.it reading.recs = ({}, reading.recs) := by
    rw [filterItLog, it]
    exact feed_pass fun rec mem => by simp [filterItApplyLogrec, plain rec mem]
  obtain ⟨next, done, cs', it', pages, lsn, -, taken, mp⟩ := processLog_read reads read filtered stored
  refine ⟨next, done, ⟨cs' ▸ cs, it', pages ▸ cached, fun rec mem real => ?_, fun applied => ?_⟩, taken⟩
  · have saw : (applyLogMp cfg chunk u.mp reading.recs).1.Saw rec :=
      applyLogMp_saw cfg (start.subset mem) real
    rw [mp]
    split <;> exact saw
  · rw [readPages_recs_eq_nil read (lsn ▸ applied), prefix_nil] at start
    exact start

variable {cfg} {chunks : List ℕ}

/-- The loop over the chunks that are left: each of them is as if it had been given what is read. -/
theorem HasRead.processChunks (hasRead : HasRead cfg again u)
    (plain : ∀ rec ∈ again.recs, rec.trx = .plain)
    (stable : readPages cfg 1 0 again.pages = some again) (nodup : chunks.Nodup)
    (fresh : ∀ chunk ∈ chunks, u.taken chunk = []) :
    ∃ final, processChunks cfg 1 chunks u = some final ∧
      (∀ chunk ∉ chunks, final.taken chunk = u.taken chunk) ∧
      ∀ chunk ∈ chunks, ∀ objects offset, cfg.InChunk chunk offset →
        tableAfter cfg chunk objects (final.taken chunk) offset =
          tableAfter cfg chunk objects again.recs offset := by
  induction chunks generalizing u with
  | nil => exact ⟨u, rfl, fun _ _ => rfl, by simp⟩
  | cons chunk rest ih =>
    obtain ⟨notMem, nodup⟩ := nodup_cons.mp nodup
    have first : ∃ next, processLog cfg 1 chunk u = some next ∧ HasRead cfg again next ∧
        (∀ other, other ≠ chunk → next.taken other = u.taken other) ∧
        ∀ objects offset, cfg.InChunk chunk offset →
          tableAfter cfg chunk objects (next.taken chunk) offset =
            tableAfter cfg chunk objects again.recs offset := by
      have none := fresh chunk mem_cons_self
      by_cases passes : u.PassesOver cfg chunk
      · refine ⟨u, by rw [processLog, if_pos passes], hasRead, fun _ _ => rfl,
          fun objects offset inside => ?_⟩
        rw [none]
        rcases passes.1 with outside | ⟨-, applied⟩
        · exact (tableAfter_untouched cfg (fun rec mem real =>
            outside.not_touches (hasRead.saw rec mem real)) inside).symm
        · rw [hasRead.behind applied]
      · obtain ⟨next, done, hasRead', taken⟩ := processLog_plain cfg hasRead.cs hasRead.it plain
          passes hasRead.cached stable (prefix_refl _)
        refine ⟨next, done, hasRead', fun other ne => by rw [taken, update_of_ne ne],
          fun objects offset _ => ?_⟩
        rw [taken, update_self, none, nil_append]
    obtain ⟨next, done, hasRead', others, here⟩ := first
    obtain ⟨final, reached, frame, inside⟩ := ih hasRead' nodup fun c mem => by
      rw [others c fun same => notMem (same ▸ mem), fresh c (mem_cons_of_mem _ mem)]
    refine ⟨final, by rw [Recovery.processChunks, done]; exact reached, fun other out => ?_,
      forall_mem_cons.mpr ⟨?_, inside⟩⟩
    · rw [mem_cons, not_or] at out
      rw [frame other out.2, others other out.1]
    · rw [frame chunk notMem]
      exact here

/-- The records of a log that a chunk is given: all of them for the first one, those before the first
spoilt page for the others. -/
def recsFor (cfg : Config) (old : List LogPage) (recs : List LogRec) (chunk : ℕ) : List LogRec :=
  if chunk = 0 then recs else recsAgain cfg 1 old

variable {old : List LogPage}

section

variable (read : readPages cfg 1 0 old = some reading) (unverified : cfg.chksumObject = false)
  (plain : ∀ rec ∈ reading.recs, rec.trx = .plain)

include read unverified plain

/-- The table as the loop leaves it. -/
theorem mergeOldLog_table (objects : ℕ → FlashObject) (casId : ℕ) :
    ∃ u, mergeOldLog cfg (range cfg.numChunks) (.start cfg objects casId old) = some u ∧
      ∀ chunk < cfg.numChunks, ∀ offset, cfg.InChunk chunk offset →
        u.mp.objects offset =
          tableAfter cfg chunk objects (recsFor cfg old reading.recs chunk) offset := by
  rcases Nat.eq_zero_or_pos cfg.numChunks with none | several
  · rw [none]
    exact ⟨_, rfl, fun _ below => absurd below (Nat.not_lt_zero _)⟩
  obtain ⟨again, readAgain, stable, recsSame, -⟩ := readPages_again read
  have start : again.recs <+: reading.recs := recsSame ▸ recsAgain_front read
  have reads : ¬(Updater.start cfg objects casId old).PassesOver cfg 0 := by
    simp [Updater.PassesOver, Updater.outside, Updater.start, Config.startObj]
  obtain ⟨next, done, hasRead, taken⟩ := processLog_plain cfg
    (by simp [Updater.start, filterCsInitialize, unverified]) rfl plain reads read readAgain start
  obtain ⟨n, count⟩ := Nat.exists_eq_succ_of_ne_zero several.ne'
  obtain ⟨final, reached, frame, inside⟩ := hasRead.processChunks
    (fun rec mem => plain rec (start.subset mem)) stable
    (nodup_range.map Nat.succ_injective : ((range n).map Nat.succ).Nodup) fun chunk mem => by
      obtain ⟨c, -, rfl⟩ := mem_map.mp mem
      rw [taken, update_of_ne c.succ_ne_zero]
      rfl
  have merged : processChunks cfg 1 (range cfg.numChunks) (.start cfg objects casId old) =
      some final := by
    rw [count, range_succ_eq_map, processChunks, done]
    exact reached
  refine ⟨final, by rw [mergeOldLog_eq pairwise_lt_range, merged], fun chunk below offset here => ?_⟩
  have untaken : Reflects cfg objects (.start cfg objects casId old) := fun _ _ _ _ => rfl
  rw [untaken.processChunks (fun _ mem => mem_range.mp mem) merged chunk below offset here, recsFor]
  split_ifs with isFirst
  · subst isFirst
    rw [frame 0 (by simp), taken, update_self]
    rfl
  · rw [inside chunk (mem_map.mpr ⟨chunk - 1, mem_range.mpr (by omega), by omega⟩) objects offset here,
      recsSame]
    rfl

end

/-- What makes the merge by chunks right: no record from the first spoilt page on puts or deletes an
object behind the first chunk, and no delete record that a chunk is given takes an object of it along
that it does not take from the whole table. -/
structure MergesRight (cfg : Config) (old : List LogPage) (recs : List LogRec) : Prop where
  lost : ∀ rec ∈ recs.drop (recsAgain cfg 1 old).length, ¬rec.IsDummy →
    ∀ offset < cfg.tableObjs, cfg.chunkObjs ≤ offset →
      ¬rec.Puts offset ∧ ¬cfg.whole.Erases 0 rec offset
  deletes : ∀ chunk < cfg.numChunks, ∀ rec ∈ recsFor cfg old recs chunk, cfg.OneChunk chunk rec

/-- The chunk is as in the whole table. -/
def AsWhole (cfg : Config) (old : List LogPage) (recs : List LogRec) (objects : ℕ → FlashObject)
    (chunk offset : ℕ) : Prop :=
  tableAfter cfg chunk objects (recsFor cfg old recs chunk) offset =
    tableAfter cfg.whole 0 objects recs offset

section

variable (lt : chunk < cfg.numChunks) (inside : cfg.InChunk chunk offset)

include lt inside

theorem Config.InChunk.whole : cfg.whole.InChunk 0 offset := by
  have below := ((inChunk_iff lt).mp inside).1
  exact (cfg.inChunk_whole (Nat.zero_lt_of_lt below)).mpr below

theorem MergesRight.asWhole (right : MergesRight cfg old recs)
    (start : recsAgain cfg 1 old <+: recs) : AsWhole cfg old recs objects chunk offset := by
  have given := right.deletes chunk lt
  rw [AsWhole]
  rw [recsFor] at given ⊢
  split_ifs at given ⊢ with isFirst
  · exact tableAfter_whole cfg lt inside given rfl
  · obtain ⟨lost, rfl⟩ := start
    have behind : cfg.chunkObjs ≤ offset :=
      (Nat.le_mul_of_pos_left _ (Nat.pos_of_ne_zero isFirst)).trans inside.1
    have later : ∀ rec ∈ lost, ¬rec.IsDummy → ¬rec.Puts offset ∧ ¬cfg.whole.Erases 0 rec offset :=
      fun rec mem real => right.lost rec (by rwa [drop_left]) real offset
        ((Config.inChunk_iff lt).mp inside).1 behind
    rw [tableAfter_whole cfg lt inside given rfl]
    conv_rhs => rw [tableAfter, foldl_append]
    exact (tableAfter_unchanged cfg.whole (inside.whole lt) later).symm

end

/-- A marked object: neither put nor delete leave it. -/
def marked : FlashObject := { tombstone := true }

theorem applyToTable_marked (inside : cfg.InChunk chunk offset)
    (changes : rec.Puts offset ∨ cfg.Erases chunk rec offset) :
    (applyToTable cfg chunk (fun _ => marked) rec).1 offset ≠ marked := by
  rw [applyToTable_at cfg inside]
  split_ifs with erases puts
  · exact fun same => absurd (congrArg FlashObject.tombstone same) (by decide)
  · exact fun same => absurd (congrArg FlashObject.tombstone same) Bool.false_ne_true
  · exact absurd changes (not_or.mpr ⟨puts, erases⟩)

/-- A log that names no offset twice is merged right only under the condition: the object that tells
is a marked one. -/
theorem MergesRight.of_asWhole (start : recsAgain cfg 1 old <+: recs)
    (once : (recs.flatMap LogRec.offsets).Nodup)
    (same : ∀ chunk < cfg.numChunks, ∀ offset, cfg.InChunk chunk offset →
      AsWhole cfg old recs (fun _ => marked) chunk offset) : MergesRight cfg old recs where
  lost rec mem real offset below behind := by
    obtain ⟨chunk, lt, inside⟩ := cfg.exists_chunk below
    rw [← not_or]
    intro changes
    have named := LogRec.mem_offsets cfg.whole real changes
    have later : chunk ≠ 0 := by
      rintro rfl
      have first := ((Config.inChunk_iff lt).mp inside).2
      exact absurd (Nat.div_pos behind cfg.chunkObjs_pos) (by omega)
    have outcome := same chunk lt offset inside
    rw [AsWhole, recsFor, if_neg later,
      tableAfter_only cfg.whole (inside.whole lt) (mem_of_mem_drop mem) real named once] at outcome
    -- the chunk is not given the record, and no other names the object
    obtain ⟨lost, rfl⟩ := start
    rw [drop_left] at mem
    rw [flatMap_append, nodup_append'] at once
    have kept : tableAfter cfg chunk (fun _ => marked) (recsAgain cfg 1 old) offset = marked :=
      tableAfter_unnamed cfg inside fun there => once.2.2 there (mem_flatMap.mpr ⟨rec, mem, named⟩)
    exact applyToTable_marked (inside.whole lt) changes (outcome.symm.trans kept)
  deletes chunk lt rec mem alone delete old' inside below := by
    by_contra elsewhere
    have real : ¬rec.IsDummy := fun dummy => old' dummy.2.2.2.2
    have erases : cfg.Erases chunk rec (complement48 rec.mloOldOffset) :=
      ⟨alone, .inr ⟨old', rfl, .inr elsewhere⟩⟩
    have named := LogRec.mem_offsets cfg real (.inr erases)
    have given : recsFor cfg old recs chunk <+: recs := by
      rw [recsFor]
      split_ifs
      · exact prefix_refl _
      · exact start
    have outcome := same chunk lt _ inside
    obtain ⟨rest, split⟩ := given
    have part : ((recsFor cfg old recs chunk).flatMap LogRec.offsets).Nodup := by
      rw [← split, flatMap_append, nodup_append'] at once
      exact once.1
    rw [AsWhole, tableAfter_only cfg inside mem real named part, tableAfter_only cfg.whole
      (inside.whole lt) (split ▸ mem_append_left _ mem) real named once] at outcome
    refine applyToTable_marked inside (.inr erases) (outcome.trans ?_)
    have unput : ¬rec.Puts (complement48 rec.mloOldOffset) := fun puts => puts.2 delete
    have whole : cfg.whole.InChunk 0 rec.mloBlkOffset := (cfg.inChunk_whole (by omega)).mpr below
    have stays : ¬cfg.whole.Erases 0 rec (complement48 rec.mloOldOffset) := by
      rintro ⟨-, ⟨here, -⟩ | ⟨-, -, put | out⟩⟩
      · exact elsewhere (here ▸ inside)
      · exact put delete
      · exact out whole
    rw [applyToTable_at cfg.whole (inside.whole lt), if_neg stays, if_neg unput]

/-- Without the filter of slabs, plain records come to the same in one chunk after the other as in
the whole table, if the condition holds; and only then, if the log names no offset twice. -/
theorem merge_by_chunks (cfg : Config) (casId : ℕ) {old : List LogPage} {reading : Reading}
    (read : readPages cfg 1 0 old = some reading) (unverified : cfg.chksumObject = false)
    (plain : ∀ rec ∈ reading.recs, rec.trx = .plain) :
    (MergesRight cfg old reading.recs → ∀ objects, ∃ u,
      mergeOldLog cfg (range cfg.numChunks) (.start cfg objects casId old) = some u ∧
        ∀ offset < cfg.tableObjs,
          u.mp.objects offset = tableAfter cfg.whole 0 objects reading.recs offset) ∧
    ((reading.recs.flatMap LogRec.offsets).Nodup →
      (∀ objects, ∃ u,
        mergeOldLog cfg (range cfg.numChunks) (.start cfg objects casId old) = some u ∧
          ∀ offset < cfg.tableObjs,
            u.mp.objects offset = tableAfter cfg.whole 0 objects reading.recs offset) →
      MergesRight cfg old reading.recs) := by
  have start := recsAgain_front read
  have table := mergeOldLog_table read unverified plain
  constructor
  · intro right objects
    obtain ⟨u, done, given⟩ := table objects casId
    refine ⟨u, done, fun offset below => ?_⟩
    obtain ⟨chunk, lt, inside⟩ := cfg.exists_chunk below
    exact (given chunk lt offset inside).trans (right.asWhole lt inside start)
  · intro once same
    refine .of_asWhole start once fun chunk lt offset inside => ?_
    obtain ⟨u, done, given⟩ := table (fun _ => marked) casId
    obtain ⟨u', done', whole⟩ := same fun _ => marked
    obtain rfl : u = u' := Option.some.inj (done.symm.trans done')
    exact (given chunk lt offset inside).symm.trans
      (whole offset ((Config.inChunk_iff lt).mp inside).1)

/-- The table of `twoChunks`, with the filter of slabs off. -/
def plainChunks : Config := { twoChunks with chksumObject := false }

/-- A put, and one that moves its object from the first chunk to the second, on a page that carries
the marks already. -/
def movePage : LogPage :=
  (pageOf 1 2111044767708108612 [putRec 1 3, { putRec 2 9 with mloOldOffset := 2 ^ 48 - 6 }]).mark 1

/-- A put for the first chunk, on a page that the marks spoil. -/
def lastPage : LogPage := pageOf 2 18255957723726957560 [putRec 3 5]

/-- Puts for both chunks, on a page that the marks spoil. -/
def bothPage : LogPage := pageOf 1 4377853192602971348 [putRec 1 3, putRec 2 9]

theorem movePage_lastPage_right :
    MergesRight plainChunks [movePage, lastPage] (movePage.recs ++ (lastPage.mark 1).recs) := by
  constructor <;> decide +kernel

theorem bothPage_not_right : ¬MergesRight plainChunks [bothPage] (bothPage.mark 1).recs := by
  intro right
  have mem : (putRec 2 9).mark 1 ∈
      (bothPage.mark 1).recs.drop (recsAgain plainChunks 1 [bothPage]).length := by decide +kernel
  have kept := (right.lost _ mem (by decide) 9 (by decide) (by decide)).1
  exact kept ⟨rfl, by decide⟩

/-- A log whose last page is spoilt is merged right, as only the first chunk needs that page; one
with a put for the second chunk on it is not. -/
theorem merge_by_chunks_pages :
    (∀ objects, ∃ u, mergeOldLog plainChunks (range plainChunks.numChunks)
        (.start plainChunks objects 0 [movePage, lastPage]) = some u ∧
      ∀ offset < plainChunks.tableObjs, u.mp.objects offset = tableAfter plainChunks.whole 0 objects
        (movePage.recs ++ (lastPage.mark 1).recs) offset) ∧
    ¬∀ objects, ∃ u, mergeOldLog plainChunks (range plainChunks.numChunks)
        (.start plainChunks objects 0 [bothPage]) = some u ∧
      ∀ offset < plainChunks.tableObjs, u.mp.objects offset =
        tableAfter plainChunks.whole 0 objects (bothPage.mark 1).recs offset := by
  have readKept : readPages plainChunks 1 0 [movePage, lastPage] =
      some ⟨[movePage, lastPage.mark 1], movePage.recs ++ (lastPage.mark 1).recs, 2⟩ := by
    decide +kernel
  have readLost : readPages plainChunks 1 0 [bothPage] =
      some ⟨[bothPage.mark 1], (bothPage.mark 1).recs, 1⟩ := by decide +kernel
  have kept := (merge_by_chunks plainChunks 0 readKept rfl (by decide +kernel)).1
  have lost := (merge_by_chunks plainChunks 0 readLost rfl (by decide +kernel)).2
  exact ⟨kept movePage_lastPage_right, mt (lost (by decide +kernel)) bothPage_not_right⟩

/-- The marks spoil the page, and the second chunk does not get its record. -/
theorem second_chunk_not_merged :
    (readPages plainChunks 1 0 [bothPage]).map (fun reading => (reading.recs,
        (tableAfter plainChunks.whole 0 (fun _ => {}) reading.recs 9).seqno)) =
      some ((bothPage.mark 1).recs, 2) ∧
    (mergeOldLog plainChunks (range plainChunks.numChunks)
      (.start plainChunks (fun _ => {}) 0 [bothPage])).map
      (fun u => (u.mp.objects 3, (u.mp.objects 9).seqno)) = some ((putRec 1 3).object {}, 0) := by
  decide +kernel

end Zetascale.Recovery
