import Zetascale.Recovery.Truncation

/-!
# Reading the log again for every chunk

The pages of a log are read from flash once and stay in memory for the readings
that follow. The first reading marks their records, and a page that does not
keep its checksum then ends the log in every later reading. This module says
which records a later reading hands out, and when all chunks of the table get
the same log.
-/

namespace Zetascale.Recovery

open Function List

variable {cfg : Config} {pass : ℕ} {reading : Reading}

/-! ## Pages -/

/-- The pages whose records a reading hands out. -/
def handedOut (cfg : Config) : ℕ → List LogPage → List LogPage
  | _, [] => []
  | prevLSN, page :: rest =>
    if page.checksum ≠ 0 ∧ page.computed = page.checksum ∧ prevLSN ≤ page.lsn ∧
        cfg.ckptLSN < page.lsn then page :: handedOut cfg page.lsn rest
    else []

/-- The marks do not change the checksum of the page. -/
def LogPage.KeepsChecksum (pass : ℕ) (page : LogPage) : Prop :=
  (page.mark pass).computed = page.computed

instance (pass : ℕ) (page : LogPage) : Decidable (page.KeepsChecksum pass) :=
  inferInstanceAs (Decidable (_ = _))

/-- The records of pages as they are handed out. -/
def recsOf (pass : ℕ) (pages : List LogPage) : List LogRec :=
  pages.flatMap fun page => (page.mark pass).recs

theorem recsOf_cons (pass : ℕ) (page : LogPage) (pages : List LogPage) :
    recsOf pass (page :: pages) = (page.mark pass).recs ++ recsOf pass pages := flatMap_cons

/-- The records that every reading but the first hands out: those of the pages before the first one
whose checksum the marks change. -/
def recsAgain (cfg : Config) (pass : ℕ) (pages : List LogPage) : List LogRec :=
  recsOf pass ((handedOut cfg 0 pages).takeWhile fun page => page.KeepsChecksum pass)

theorem LogPage.mark_mark (page : LogPage) : (page.mark pass).mark pass = page.mark pass := by
  rw [mark, mark, map_map]
  rfl

/-- What a page is to a reading that comes to it. -/
theorem readPages_cons {prevLSN : ℕ} {page : LogPage} {rest : List LogPage}
    (read : readPages cfg pass prevLSN (page :: rest) = some reading) :
    (handedOut cfg prevLSN (page :: rest) = page :: handedOut cfg page.lsn rest ∧
      cfg.ckptLSN < page.lsn ∧ ∃ after, readPages cfg pass page.lsn rest = some after ∧
        reading = ⟨page.mark pass :: after.pages, (page.mark pass).recs ++ after.recs, after.highLSN⟩ ∧
        ∀ rest' after', readPages cfg pass page.lsn rest' = some after' →
          readPages cfg pass prevLSN (page.mark pass :: rest') =
            some (if page.KeepsChecksum pass then
              ⟨page.mark pass :: after'.pages, (page.mark pass).recs ++ after'.recs, after'.highLSN⟩
              else ⟨{} :: rest', [], prevLSN⟩)) ∨
    (handedOut cfg prevLSN (page :: rest) = [] ∧ reading.recs = [] ∧
      readPages cfg pass prevLSN reading.pages = some reading) := by
  rw [readPages] at read
  split_ifs at read with zero blank wrong header back jump applied
  · refine .inr ⟨if_neg fun out => out.1 zero, ?_⟩
    rw [← Option.some.inj read, readPages, if_pos zero, if_pos blank]
    exact ⟨rfl, rfl⟩
  · refine .inr ⟨if_neg fun out => wrong out.2.1, ?_⟩
    rw [← Option.some.inj read, readPages, if_pos rfl, if_pos ⟨rfl, rfl, rfl⟩]
    exact ⟨rfl, rfl⟩
  · refine .inr ⟨if_neg fun out => absurd out.2.2.1 (not_le.mpr back), ?_⟩
    rw [← Option.some.inj read, readPages, if_neg zero, if_neg wrong, if_neg header, if_pos back]
    exact ⟨rfl, rfl⟩
  · refine .inr ⟨if_neg fun out => absurd out.2.2.2 (not_lt.mpr applied), ?_⟩
    rw [← Option.some.inj read, readPages, if_neg zero, if_neg wrong, if_neg header, if_neg back,
      if_neg jump, if_pos applied]
    exact ⟨rfl, rfl⟩
  · have right := not_not.mp wrong
    refine .inl ⟨if_pos ⟨zero, right, not_lt.mp back, not_le.mp applied⟩, not_le.mp applied, ?_⟩
    obtain ⟨after, readRest, rfl⟩ := Option.map_eq_some_iff.mp read
    refine ⟨after, readRest, by simp [LogPage.mark], fun rest' after' readRest' => ?_⟩
    have checked : (page.mark pass).computed = (page.mark pass).checksum ↔
        page.KeepsChecksum pass := by
      rw [LogPage.KeepsChecksum, right]
      rfl
    rw [readPages, if_neg (by exact zero)]
    by_cases kept : page.KeepsChecksum pass
    · rw [if_neg (not_not_intro (checked.mpr kept)), if_neg (by exact header),
        if_neg (by exact back), if_neg (by exact jump), if_neg (by exact applied), if_pos kept,
        LogPage.mark_mark]
      refine (congrArg (Option.map _) readRest').trans ?_
      simp [LogPage.mark, LogRec.mark]
    · rw [if_pos (mt checked.mp kept), if_neg kept]

theorem readPages_recs {pages : List LogPage} {prevLSN : ℕ}
    (read : readPages cfg pass prevLSN pages = some reading) :
    reading.recs = recsOf pass (handedOut cfg prevLSN pages) := by
  induction pages generalizing prevLSN reading with
  | nil =>
    rw [← Option.some.inj read]
    rfl
  | cons page rest ih =>
    rcases readPages_cons read with ⟨out, -, after, readRest, rfl, -⟩ | ⟨out, none, -⟩
    · rw [out, recsOf_cons, ← ih readRest]
    · rw [out, none]
      rfl

/-- A reading ends behind the checkpoint if it has handed out a record. -/
theorem readPages_highLSN {prevLSN : ℕ} {pages : List LogPage}
    (read : readPages cfg pass prevLSN pages = some reading) (behind : cfg.ckptLSN < prevLSN) :
    cfg.ckptLSN < reading.highLSN := by
  induction pages generalizing prevLSN reading with
  | nil => exact Option.some.inj read ▸ behind
  | cons page rest ih =>
    rw [readPages] at read
    split_ifs at read with zero blank wrong header back jump applied
    iterate 3 · exact Option.some.inj read ▸ behind
    · omega
    · obtain ⟨after, readRest, rfl⟩ := Option.map_eq_some_iff.mp read
      have rest := ih readRest (not_le.mp applied)
      exact rest

/-- Every later reading of a log that was read: it ends at the first page that has not kept its
checksum. -/
theorem readPages_again {pages : List LogPage} {prevLSN : ℕ}
    (read : readPages cfg pass prevLSN pages = some reading) :
    ∃ again, readPages cfg pass prevLSN reading.pages = some again ∧
      readPages cfg pass prevLSN again.pages = some again ∧
      again.recs = recsOf pass
        ((handedOut cfg prevLSN pages).takeWhile fun page => page.KeepsChecksum pass) ∧
      (again.highLSN ≤ cfg.ckptLSN → again.highLSN = prevLSN ∨ reading.recs = []) := by
  induction pages generalizing prevLSN reading with
  | nil =>
    rw [← Option.some.inj read]
    exact ⟨_, rfl, rfl, rfl, fun _ => .inl rfl⟩
  | cons page rest ih =>
    rcases readPages_cons read with ⟨out, behind, after, readRest, rfl, marked⟩ | ⟨out, none, same⟩
    · obtain ⟨again, readAgain, stable, recs, -⟩ := ih readRest
      have first := marked _ _ readAgain
      by_cases kept : page.KeepsChecksum pass
      · rw [if_pos kept] at first
        refine ⟨_, first, (marked _ _ stable).trans (by rw [if_pos kept]), ?_, fun below => ?_⟩
        · rw [out, takeWhile_cons_of_pos (by simpa using kept), recsOf_cons, recs]
        · exact absurd (readPages_highLSN readAgain behind) (not_lt.mpr below)
      · rw [if_neg kept] at first
        refine ⟨_, first, by rw [readPages, if_pos rfl, if_pos ⟨rfl, rfl, rfl⟩], ?_,
          fun _ => .inl rfl⟩
        rw [out, takeWhile_cons_of_neg (by simpa using kept)]
        rfl
    · exact ⟨reading, same, same, by rw [none, out]; rfl, fun _ => .inr none⟩

theorem recsAgain_front {pages : List LogPage} (read : readPages cfg pass 0 pages = some reading) :
    recsAgain cfg pass pages <+: reading.recs := by
  rw [readPages_recs read]
  obtain ⟨rest, split⟩ := takeWhile_prefix (l := handedOut cfg 0 pages)
    fun page => decide (page.KeepsChecksum pass)
  conv_rhs => rw [← split, recsOf, flatMap_append]
  exact prefix_append _ _

theorem readPages_pass {pages : List LogPage} {prevLSN : ℕ}
    (read : readPages cfg pass prevLSN pages = some reading) : ∀ rec ∈ reading.recs, rec.pass = pass := by
  rw [readPages_recs read]
  intro rec mem
  obtain ⟨page, -, marked⟩ := mem_flatMap.mp mem
  obtain ⟨_, -, rfl⟩ := mem_map.mp marked
  rfl

/-! ## Chunks -/

variable {cs : CsState} {recs : List LogRec} {u : Updater} {chunks : List ℕ}

theorem processLog_read {chunk : ℕ} (reads : ¬u.PassesOver cfg chunk)
    (read : readPages cfg pass 0 u.pages = some reading)
    (filtered : filterCsLog cfg u.cs reading.recs = (cs, recs)) {it : ItState} {trxs : List LogRec}
    (parked : filterItLog u.it recs = (it, trxs)) :
    ∃ next, processLog cfg pass chunk u = some next ∧ next.cs = cs ∧
      next.it = filterItRewindLog cs.badstate it ∧ next.pages = reading.pages ∧
      next.highLSN = reading.highLSN ∧
      next.delivered = update u.delivered chunk (u.delivered chunk ++ recs) ∧
      next.taken = update u.taken chunk (u.taken chunk ++ trxs) ∧
      next.mp = if (applyLogMp cfg chunk u.mp trxs).2 = 0 then
        { (applyLogMp cfg chunk u.mp trxs).1 with objects := u.mp.objects }
        else (applyLogMp cfg chunk u.mp trxs).1 := by
  rw [processLog, if_neg reads, read, Option.map_some]
  simp only [filtered, parked]
  exact ⟨_, rfl, rfl, rfl, rfl, rfl, rfl, rfl, rfl⟩

theorem processChunks_passes (passes : ∀ chunk ∈ chunks, u.PassesOver cfg chunk) :
    processChunks cfg pass chunks u = some u := by
  induction chunks with
  | nil => rfl
  | cons chunk rest ih =>
    rw [processChunks, processLog, if_pos (passes chunk mem_cons_self)]
    exact ih fun c mem => passes c (mem_cons_of_mem _ mem)

/-- The chunks that the loop over the old log skips, or does not come to, would be passed over. -/
theorem mergeOldLog_eq (ascending : chunks.Pairwise (· < ·)) (u : Updater) :
    mergeOldLog cfg chunks u = processChunks cfg 1 chunks u := by
  induction chunks generalizing u with
  | nil => rfl
  | cons chunk rest ih =>
    obtain ⟨least, ascending⟩ := pairwise_cons.mp ascending
    rw [mergeOldLog]
    split_ifs with skipped beyond
    · refine (processChunks_passes fun c mem => ⟨.inl (.inl ?_), skipped.2⟩).symm
      have above : chunk ≤ c := (mem_cons.mp mem).elim (fun same => same.ge)
        fun mem => (least c mem).le
      exact lt_of_lt_of_le beyond (Nat.mul_le_mul_right _ above)
    · rw [processChunks, processLog, if_pos ⟨.inl skipped.1, skipped.2⟩, ih ascending]
      rfl
    · rw [processChunks]
      exact Option.bind_congr fun next _ => ih ascending next

section

variable (verify : cfg.updateVerify = true)

include verify

theorem not_passesOver (u : Updater) (chunk : ℕ) :
    ¬u.PassesOver cfg chunk := by simp [Updater.PassesOver, verify]

/-- The readings for several chunks in a row, from the cache. -/
theorem processChunks_delivers {again : Reading} (cached : readPages cfg pass 0 u.pages = some again)
    (stable : readPages cfg pass 0 again.pages = some again) (nodup : chunks.Nodup) :
    ∃ final, processChunks cfg pass chunks u = some final ∧
      final.cs = (fun cs => (filterCsLog cfg cs again.recs).1)^[chunks.length] u.cs ∧
      (∀ chunk ∉ chunks, final.delivered chunk = u.delivered chunk) ∧
      (∀ chunk, u.delivered chunk <+: final.delivered chunk) ∧
      ∀ out, (∀ chunk ∈ chunks, final.delivered chunk = u.delivered chunk ++ out) ↔
        HandsOn cfg id again.recs out chunks.length u.cs := by
  induction chunks generalizing u with
  | nil => exact ⟨u, rfl, rfl, fun _ _ => rfl, fun _ => prefix_refl _, fun _ => by simp [HandsOn]⟩
  | cons chunk rest ih =>
    obtain ⟨fresh, nodup⟩ := nodup_cons.mp nodup
    obtain ⟨next, done, csNext, -, pagesNext, -, delivered, -⟩ :=
      processLog_read (not_passesOver verify u chunk) cached Prod.mk.eta.symm rfl
    obtain ⟨final, reached, csFinal, others, grown, after⟩ := ih (pagesNext ▸ stable) nodup
    have here : final.delivered chunk =
        u.delivered chunk ++ (filterCsLog cfg u.cs again.recs).2 := by
      rw [others chunk fresh, delivered, update_self]
    have elsewhere : ∀ other, other ≠ chunk → next.delivered other = u.delivered other :=
      fun other ne => by rw [delivered, update_of_ne ne]
    refine ⟨final, by rw [processChunks, done]; exact reached, ?_, fun other notMem => ?_,
      fun other => ?_, fun out => ?_⟩
    · rw [csFinal, csNext, length_cons, iterate_succ_apply]
    · rw [mem_cons, not_or] at notMem
      rw [others other notMem.2, elsewhere other notMem.1]
    · by_cases same : other = chunk
      · subst same
        rw [here]
        exact prefix_append _ _
      · exact elsewhere other same ▸ grown other
    · rw [forall_mem_cons, here, append_cancel_left_eq, length_cons, HandsOn, ← csNext, ← after, id]
      refine and_congr_right fun _ => forall₂_congr fun other mem => ?_
      rw [elsewhere other fun same => fresh (same ▸ mem)]

/-- All chunks of the table: the first reading, then the ones after it. -/
theorem processChunks_range (several : 0 < cfg.numChunks)
    (read : readPages cfg pass 0 u.pages = some reading)
    (filtered : filterCsLog cfg u.cs reading.recs = (cs, recs)) :
    ∃ final, processChunks cfg pass (range cfg.numChunks) u = some final ∧
      final.cs = (fun cs => (filterCsLog cfg cs (recsAgain cfg pass u.pages)).1)^[
        cfg.numChunks - 1] cs ∧
      final.delivered 0 = u.delivered 0 ++ recs ∧
      (∀ chunk, u.delivered chunk <+: final.delivered chunk) ∧
      ∀ out, (∀ chunk < cfg.numChunks, 0 < chunk →
          final.delivered chunk = u.delivered chunk ++ out) ↔
        HandsOn cfg id (recsAgain cfg pass u.pages) out (cfg.numChunks - 1) cs := by
  obtain ⟨n, count⟩ := Nat.exists_eq_succ_of_ne_zero several.ne'
  obtain ⟨again, readAgain, stable, recsSame, -⟩ := readPages_again read
  obtain ⟨next, done, csNext, -, pagesNext, -, delivered, -⟩ :=
    processLog_read (not_passesOver verify u 0) read filtered rfl
  obtain ⟨final, reached, csFinal, others, grown, after⟩ := processChunks_delivers verify
    (pagesNext ▸ readAgain) stable (nodup_range.map Nat.succ_injective : ((range n).map _).Nodup)
  have elsewhere : ∀ chunk, 0 < chunk → next.delivered chunk = u.delivered chunk :=
    fun chunk pos => by rw [delivered, update_of_ne pos.ne']
  have here : final.delivered 0 = u.delivered 0 ++ recs := by
    rw [others 0 (by simp), delivered, update_self]
  rw [length_map, length_range, csNext] at csFinal
  simp only [length_map, length_range, csNext] at after
  rw [recsSame] at csFinal after
  rw [count, range_succ_eq_map, processChunks, done, Option.bind_some]
  refine ⟨final, reached, csFinal, here, fun chunk => ?_, fun out => ?_⟩
  · rcases Nat.eq_zero_or_pos chunk with rfl | pos
    · exact here ▸ prefix_append _ _
    · exact elsewhere chunk pos ▸ grown chunk
  · rw [Nat.succ_sub_one]
    refine Iff.trans ?_ (after out)
    constructor
    · intro all chunk mem
      obtain ⟨c, below, rfl⟩ := mem_map.mp mem
      rw [elsewhere _ c.succ_pos]
      exact all _ (Nat.succ_lt_succ (mem_range.mp below)) c.succ_pos
    · intro all chunk below pos
      rw [← elsewhere chunk pos]
      exact all chunk (mem_map.mpr ⟨chunk - 1, mem_range.mpr (by omega), by omega⟩)

end

/-- Every chunk of the table gets the one effective log, where the log is read for every chunk, just
if the condition holds. -/
theorem delivered_effectiveLog (cfg : Config) (verify : cfg.updateVerify = true)
    (objects : ℕ → FlashObject) (casId : ℕ) {old cur : List LogPage}
    {oldReading curReading : Reading} (readOld : readPages cfg 1 0 old = some oldReading)
    (readCur : readPages cfg 2 0 cur = some curReading) :
    (∃ u, updaterThread cfg objects casId old cur = some u ∧
      ∀ chunk < cfg.numChunks,
        u.delivered chunk = effectiveLog cfg (oldReading.recs ++ curReading.recs)) ↔
    SameForEveryChunk cfg oldReading.recs (recsAgain cfg 1 old) curReading.recs
      (recsAgain cfg 2 cur) := by
  obtain ⟨csOld, csCur, dCur, first, last, cut, againFirst, againLast⟩ :=
    filterCsLog_both cfg oldReading.recs curReading.recs
  rcases Nat.eq_zero_or_pos cfg.numChunks with none | several
  · refine iff_of_true ?_ (.inl (by omega))
    rw [updaterThread, none]
    exact ⟨_, rfl, nofun⟩
  obtain ⟨middle, reachedOld, csMiddle, firstOld, -, laterOld⟩ := processChunks_range verify several
    (u := .start cfg objects casId old) readOld first
  have replay := (laterOld _).mpr (HandsOn.of_fixed (againFirst (recsAgain cfg 1 old)) _)
  have fixed : middle.cs = csOld :=
    csMiddle.trans (iterate_fixed (congrArg Prod.fst (againFirst (recsAgain cfg 1 old))) _)
  have swapped : filterCsLog cfg (middle.swapLog cur).cs curReading.recs = (csCur, dCur) := by
    rw [Updater.swapLog, fixed, last]
  obtain ⟨final, reachedCur, -, firstCur, grown, laterCur⟩ := processChunks_range verify several
    (u := middle.swapLog cur) readCur swapped
  have whole : final.delivered 0 = effectiveLog cfg (oldReading.recs ++ curReading.recs) := by
    rw [firstCur, ← cut]
    exact congrArg (· ++ dCur) firstOld
  have ran : updaterThread cfg objects casId old cur = some final := by
    rw [updaterThread, mergeOldLog_eq pairwise_lt_range, reachedOld, Option.bind_some]
    exact reachedCur
  have before : ∀ chunk < cfg.numChunks, 0 < chunk → (middle.swapLog cur).delivered chunk =
      replayed cfg oldReading.recs (recsAgain cfg 1 old) := replay
  have property : (∃ u, updaterThread cfg objects casId old cur = some u ∧ ∀ chunk < cfg.numChunks,
        u.delivered chunk = effectiveLog cfg (oldReading.recs ++ curReading.recs)) ↔
      ∀ chunk < cfg.numChunks, 0 < chunk →
        final.delivered chunk = effectiveLog cfg (oldReading.recs ++ curReading.recs) := by
    rw [ran]
    constructor
    · rintro ⟨u, same, all⟩ chunk below -
      exact Option.some.inj same ▸ all chunk below
    · refine fun later => ⟨final, rfl, fun chunk below => ?_⟩
      rcases Nat.eq_zero_or_pos chunk with rfl | pos
      · exact whole
      · exact later chunk below pos
  rw [property]
  by_cases single : cfg.numChunks ≤ 1
  · exact iff_of_true (by omega) (.inl single)
  obtain ⟨readings, count⟩ : ∃ readings, cfg.numChunks = readings + 2 :=
    ⟨cfg.numChunks - 2, by omega⟩
  rw [← handsOn_iff_same (readPages_pass readOld) (readPages_pass readCur)
    (recsAgain_front readOld) (recsAgain_front readCur) count againLast]
  rw [show cfg.numChunks - 1 = readings + 1 by omega] at laterCur
  constructor
  · intro all
    obtain ⟨out, split⟩ := grown 1
    rw [before 1 (by omega) one_pos, all 1 (by omega) one_pos] at split
    refine ⟨out, split, (laterCur out).mp fun chunk below pos => ?_⟩
    rw [all chunk below pos, before chunk below pos, split]
  · rintro ⟨out, split, handsOn⟩ chunk below pos
    rw [(laterCur out).mpr handsOn chunk below pos, before chunk below pos, split]

/-- A page with its records, and empty ones in the slots that are left. -/
def pageOf (lsn checksum : ℕ) (recs : List LogRec) : LogPage :=
  { eyeCatcher := loghdrEyeCatcher, version := loghdrVersion, lsn, checksum
    recs := recs ++ replicate (63 - recs.length) {} }

/-- Two chunks of eight objects, rings of two cells, every slab intact, no checkpoint. -/
def twoChunks : Config where
  ckptLSN := 0
  chksumObject := true
  ringSize := 2
  ringSize_pos := by decide
  intact := fun _ => true
  updateVerify := true
  replicated := false
  tableObjs := 16
  chunkObjs := 8
  chunkObjs_pos := by decide

/-- A put of one block. -/
def putRec (seqno offset : ℕ) : LogRec := { blocks := 1, seqno, mloBlkOffset := offset }

/-- Puts for a whole page. -/
def putRecs : List LogRec := (range 63).map fun i => putRec (i + 1) (i % 16)

/-- Both chunks get both logs where the pages carry the marks already; and the log without its last
record where that is damaged. -/
theorem delivered_effectiveLog_marked :
    (let old := (pageOf 1 12560985648256880389 putRecs).mark 1
      let cur := (pageOf 2 15058705531317503779 [putRec 64 4]).mark 2
      ∃ u, updaterThread twoChunks (fun _ => {}) 0 [old] [cur] = some u ∧
        ∀ chunk < twoChunks.numChunks,
          u.delivered chunk = effectiveLog twoChunks (old.recs ++ cur.recs)) ∧
    (let cfg := { twoChunks with intact := fun rec => rec.seqno != 63 }
      let cur := (pageOf 2 4048319174005012290 putRecs).mark 2
      ∃ u, updaterThread cfg (fun _ => {}) 0 [] [cur] = some u ∧
        ∀ chunk < cfg.numChunks, u.delivered chunk = effectiveLog cfg cur.recs) := by
  constructor
  · intro old cur
    have readOld : readPages twoChunks 1 0 [old] = some ⟨[old], old.recs, 1⟩ := by decide +kernel
    have readCur : readPages twoChunks 2 0 [cur] = some ⟨[cur], cur.recs, 2⟩ := by decide +kernel
    have whole : damaged twoChunks (old.recs ++ cur.recs) = none := by decide +kernel
    refine (delivered_effectiveLog twoChunks rfl _ _ readOld readCur).mpr (.inr ?_)
    rw [whole]
    exact .inl ⟨by decide +kernel, by decide +kernel, by decide +kernel⟩
  · intro cfg cur
    have readOld : readPages cfg 1 0 [] = some ⟨[], [], 0⟩ := rfl
    have readCur : readPages cfg 2 0 [cur] = some ⟨[cur], cur.recs, 2⟩ := by decide +kernel
    have cut : damaged cfg ([] ++ cur.recs) = some ((putRec 63 14).mark 2) := by decide +kernel
    have again : recsAgain cfg 2 [cur] = cur.recs := by decide +kernel
    refine (delivered_effectiveLog cfg rfl (fun _ => {}) 0 readOld readCur).mpr (.inr ?_)
    rw [cut, again]
    refine ⟨by decide +kernel, take_prefix _ _, by decide +kernel, ?_, .inl (by decide +kernel)⟩
    rw [show (cur.recs.drop _) = [(putRec 63 14).mark 2] by decide +kernel]
    rfl

/-- The marks spoil the pages: only the first chunk gets the log. -/
theorem second_chunk_gets_nothing :
    let old := pageOf 1 4377853192602971348 [putRec 1 3, putRec 2 9]
    let cur := pageOf 2 12190768021812612939 [putRec 3 4]
    let log := (old.mark 1).recs ++ (cur.mark 2).recs
    (readPages twoChunks 1 0 [old]).map Reading.recs = some (old.mark 1).recs ∧
      (readPages twoChunks 2 0 [cur]).map Reading.recs = some (cur.mark 2).recs ∧
      effectiveLog twoChunks log = log ∧
      (updaterThread twoChunks (fun _ => {}) 0 [old] [cur]).map
        (fun u => (u.delivered 0, u.delivered 1)) = some (log, []) := by
  decide +kernel

end Zetascale.Recovery
