import Zetascale.Recovery.Log

/-!
# Truncation of a damaged log

The `cs` filter is to cut the log off at the first damaged slab among the
records it holds back, and to do so for every chunk of the object table alike.
-/

namespace Zetascale.Recovery

open Function List

section

/-- The records up to the first one whose slab is damaged. Only the newest use of a slab tells
about its content: an older one may have been overwritten. -/
def undamaged (intact : LogRec → Bool) : List LogRec → List LogRec
  | [] => []
  | rec :: rest =>
    if rec.blocks ≠ 0 ∧ intact rec = false ∧
        ∀ later ∈ rest, later.blocks ≠ 0 → later.mloBlkOffset ≠ rec.mloBlkOffset then []
    else rec :: undamaged intact rest

/-- The order that the first sort puts the entries in. -/
theorem lrringcompar1_ne_lt {r0 r1 : Lrring} : lrringcompar1 r1 r0 ≠ .lt ↔
      r0.logrec.mloBlkOffset < r1.logrec.mloBlkOffset ∨
        (r0.logrec.mloBlkOffset = r1.logrec.mloBlkOffset ∧
          (r0.logrec.blocks = 0 ∨ (r1.logrec.blocks ≠ 0 ∧ r0.ordinal ≤ r1.ordinal))) := by
  unfold lrringcompar1
  split_ifs <;> simp <;> omega

theorem lrringcompar2_ne_lt {r0 r1 : Lrring} :
    lrringcompar2 r1 r0 ≠ .lt ↔ r0.ordinal ≤ r1.ordinal := by
  unfold lrringcompar2
  split_ifs <;> simp <;> omega

theorem map_uncheckOlder (entries : List Lrring) :
    (uncheckOlder entries).map (fun r => (r.logrec, r.ordinal)) =
      entries.map fun r => (r.logrec, r.ordinal) := by
  fun_induction uncheckOlder entries with
  | case1 r0 r1 rest ih =>
    rw [map_cons, ih, map_cons]
    congr 1
    split <;> rfl
  | case2 => rfl

variable {entries : List Lrring}

theorem exists_of_mem_uncheckOlder {r : Lrring} (mem : r ∈ uncheckOlder entries) :
    ∃ entry ∈ entries, entry.logrec = r.logrec ∧ entry.ordinal = r.ordinal := by
  have image := mem_map_of_mem (f := fun r => (r.logrec, r.ordinal)) mem
  rw [map_uncheckOlder] at image
  obtain ⟨entry, entryMem, same⟩ := mem_map.mp image
  exact ⟨entry, entryMem, congrArg Prod.fst same, congrArg Prod.snd same⟩

theorem check_uncheckOlder (sorted : entries.Pairwise fun r0 r1 => lrringcompar1 r1 r0 ≠ .lt)
    (checked : ∀ r ∈ entries, r.check = true)
    (apart : entries.Pairwise fun r0 r1 => r0.ordinal ≠ r1.ordinal)
    {r : Lrring} (mem : r ∈ uncheckOlder entries) (put : r.logrec.blocks ≠ 0) :
    r.check = true ↔ ∀ other ∈ entries, other.logrec.blocks ≠ 0 →
      other.logrec.mloBlkOffset = r.logrec.mloBlkOffset → other.ordinal ≤ r.ordinal := by
  fun_induction uncheckOlder entries with
  | case1 r0 r1 rest ih =>
    obtain ⟨first, sorted⟩ := pairwise_cons.mp sorted
    obtain ⟨distinct, apart⟩ := pairwise_cons.mp apart
    have next := lrringcompar1_ne_lt.mp (first r1 mem_cons_self)
    have other := distinct r1 mem_cons_self
    rcases mem_cons.mp mem with rfl | mem
    · by_cases same : r0.logrec.mloBlkOffset = r1.logrec.mloBlkOffset
      · -- the next entry is a newer put of the slab
        rw [if_pos same] at put ⊢
        simp only [Bool.false_eq_true, false_iff] at put ⊢
        intro newest
        have := newest r1 (by simp) (by omega) same.symm
        omega
      · rw [if_neg same] at put ⊢
        simp only [checked r0 mem_cons_self, true_iff]
        intro entry entryMem _ sameSlab
        rcases mem_cons.mp entryMem with rfl | entryMem
        · exact le_rfl
        · have above := (pairwise_cons.mp sorted).1
          rcases mem_cons.mp entryMem with rfl | entryMem
          · omega
          · have := lrringcompar1_ne_lt.mp (above entry entryMem)
            omega
    · rw [ih sorted (fun r mem => checked r (mem_cons_of_mem _ mem)) apart mem,
        forall_mem_cons (a := r0)]
      obtain ⟨entry, entryMem, sameRec, sameOrdinal⟩ := exists_of_mem_uncheckOlder mem
      have before := lrringcompar1_ne_lt.mp (first entry entryMem)
      rw [sameRec, sameOrdinal] at before
      constructor
      · exact fun newest => ⟨fun _ _ => by omega, newest⟩
      · exact fun newest => newest.2
  | case2 short notLong =>
    rw [iff_true_left (checked r mem)]
    intro entry entryMem _ _
    match short, notLong with
    | [], _ => exact absurd entryMem not_mem_nil
    | [only], _ =>
      rw [mem_singleton] at mem entryMem
      rw [mem, entryMem]
    | _ :: _ :: _, notLong => exact (notLong _ _ _ rfl).elim

/-- The verification loop goes up to the first damaged newest use. -/
theorem verifyRing_fst {intact : LogRec → Bool}
    (newest : ∀ before r after, entries = before ++ r :: after → r.logrec.blocks ≠ 0 →
      (r.check = true ↔ ∀ later ∈ after, later.logrec.blocks ≠ 0 →
        later.logrec.mloBlkOffset ≠ r.logrec.mloBlkOffset)) :
    (verifyRing intact entries).1 = undamaged intact (entries.map Lrring.logrec) := by
  induction entries with
  | nil => rfl
  | cons r rest ih =>
    have tail := ih fun before r' after cut => newest (r :: before) r' after (by rw [cut]; rfl)
    have head := newest [] r rest rfl
    rw [verifyRing, map_cons, undamaged, tail]
    by_cases put : r.logrec.blocks = 0
    · rw [if_neg (by simp [put]), if_neg (by simp [put])]
    · have same : (r.logrec.blocks ≠ 0 ∧ r.check = true ∧ intact r.logrec = false) ↔
          (r.logrec.blocks ≠ 0 ∧ intact r.logrec = false ∧ ∀ later ∈ rest.map Lrring.logrec,
            later.blocks ≠ 0 → later.mloBlkOffset ≠ r.logrec.mloBlkOffset) := by
        rw [head put, forall_mem_map]
        tauto
      simp only [same]
      split <;> rfl

/-- The number it stops at is that of the record behind those it hands on. -/
theorem verifyRing_snd {intact : LogRec → Bool} : (verifyRing intact entries).2 =
      ((entries.map Lrring.logrec)[(verifyRing intact entries).1.length]?).map LogRec.seqno := by
  induction entries with
  | nil => rfl
  | cons r rest ih =>
    rw [verifyRing]
    split
    · rfl
    · simpa using ih

/-- An entry without its mark. -/
def Lrring.place (r : Lrring) : LogRec × ℕ := (r.logrec, r.ordinal)

/-- The two sorts: the entries of a list in log order, and a list with the same places sorted
by slab whose marks they carry. -/
theorem lrring_sorts (held : List LogRec) : ∃ bySlab : List Lrring,
      (bySlab.Pairwise fun r0 r1 => lrringcompar1 r1 r0 ≠ .lt) ∧ (∀ r ∈ bySlab, r.check = true) ∧
      (bySlab.Pairwise fun r0 r1 => r0.ordinal ≠ r1.ordinal) ∧
      (lrring held).Perm (uncheckOlder bySlab) ∧ (lrring held).map Lrring.place = held.zipIdx := by
  let entries := held.zipIdx.map fun p => (⟨p.1, p.2, true⟩ : Lrring)
  let bySlab := entries.mergeSort fun r0 r1 => decide (lrringcompar1 r1 r0 ≠ .lt)
  have perm : bySlab.Perm entries := mergeSort_perm _ _
  have places : entries.map Lrring.place = held.zipIdx := by
    simp [entries, Lrring.place, comp_def]
  have ordinals : entries.map Lrring.ordinal = range' 0 held.length := by
    simp [entries, comp_def, zipIdx_map_snd]
  have sorted : bySlab.Pairwise fun r0 r1 => lrringcompar1 r1 r0 ≠ .lt := by
    have := @pairwise_mergeSort Lrring (fun r0 r1 => decide (lrringcompar1 r1 r0 ≠ .lt))
      (by simp only [decide_eq_true_eq, lrringcompar1_ne_lt]; omega)
      (by simp only [Bool.or_eq_true, decide_eq_true_eq, lrringcompar1_ne_lt]; omega) entries
    simpa only [decide_eq_true_eq] using this
  have apart : bySlab.Pairwise fun r0 r1 => r0.ordinal ≠ r1.ordinal := by
    have nodup : (bySlab.map Lrring.ordinal).Nodup := by
      rw [(perm.map Lrring.ordinal).nodup_iff, ordinals]
      exact nodup_range'
    exact pairwise_map.mp nodup
  refine ⟨bySlab, sorted, ?_, apart, mergeSort_perm _ _, ?_⟩
  · intro r mem
    obtain ⟨_, _, rfl⟩ := mem_map.mp (perm.mem_iff.mp mem)
    rfl
  · -- both sides are sorted by ordinal and have the same places
    have samePlaces : ((lrring held).map Lrring.place).Perm held.zipIdx := by
      rw [← places]
      refine ((mergeSort_perm _ _).map Lrring.place).trans ?_
      exact (map_uncheckOlder bySlab) ▸ perm.map Lrring.place
    have inOrder : (lrring held).Pairwise fun r0 r1 => r0.ordinal ≤ r1.ordinal := by
      have := @pairwise_mergeSort Lrring (fun r0 r1 => decide (lrringcompar2 r1 r0 ≠ .lt))
        (by simp only [decide_eq_true_eq, lrringcompar2_ne_lt]; omega)
        (by simp only [Bool.or_eq_true, decide_eq_true_eq, lrringcompar2_ne_lt]; omega)
        (uncheckOlder bySlab)
      exact this.imp fun le => lrringcompar2_ne_lt.mp (of_decide_eq_true le)
    have zipped : held.zipIdx.Pairwise fun p q => p.2 ≤ q.2 := by
      rw [← pairwise_map (f := Prod.snd) (R := (· ≤ ·)), zipIdx_map_snd]
      exact pairwise_le_range'
    refine List.Perm.eq_of_pairwise ?_ (pairwise_map.mpr inOrder) zipped samePlaces
    intro p q pMem qMem le ge
    have pAt := mem_zipIdx_iff_getElem?.mp (samePlaces.mem_iff.mp pMem)
    have qAt := mem_zipIdx_iff_getElem?.mp qMem
    have same : p.2 = q.2 := le_antisymm le ge
    rw [same, qAt, Option.some.injEq] at pAt
    exact Prod.ext pAt.symm same

theorem lrring_logrecs (held : List LogRec) : (lrring held).map Lrring.logrec = held := by
  obtain ⟨_, _, _, _, _, places⟩ := lrring_sorts held
  have logrecs := congrArg (map Prod.fst) places
  rwa [map_map, zipIdx_map_fst] at logrecs

/-- The held records are handed on up to the first damaged slab. -/
theorem verifyRing_lrring (intact : LogRec → Bool) (held : List LogRec) :
    (verifyRing intact (lrring held)).1 = undamaged intact held := by
  obtain ⟨bySlab, sorted, checked, apart, perm, places⟩ := lrring_sorts held
  have ordinals : (lrring held).Pairwise fun r0 r1 => r0.ordinal < r1.ordinal := by
    have := congrArg (map Prod.snd) places
    rw [map_map, zipIdx_map_snd] at this
    have ascending : ((lrring held).map (Prod.snd ∘ Lrring.place)).Pairwise (· < ·) :=
      this ▸ pairwise_lt_range'
    exact pairwise_map.mp ascending
  rw [verifyRing_fst, lrring_logrecs]
  intro before r after cut put
  have mem : r ∈ uncheckOlder bySlab := perm.mem_iff.mp (cut ▸ by simp)
  rw [cut, pairwise_append, pairwise_cons] at ordinals
  obtain ⟨_, ⟨newer, _⟩, older⟩ := ordinals
  rw [check_uncheckOlder sorted checked apart mem put]
  constructor
  · intro newest later laterMem laterPut sameSlab
    have : later ∈ uncheckOlder bySlab := perm.mem_iff.mp (cut ▸ by simp [laterMem])
    obtain ⟨entry, entryMem, sameRec, sameOrdinal⟩ := exists_of_mem_uncheckOlder this
    have := newest entry entryMem (sameRec ▸ laterPut) (sameRec ▸ sameSlab)
    have := newer later laterMem
    omega
  · intro newest entry entryMem entryPut sameSlab
    have image := mem_map_of_mem (f := fun r => (r.logrec, r.ordinal)) entryMem
    rw [← map_uncheckOlder] at image
    obtain ⟨other, otherMem, same⟩ := mem_map.mp image
    rw [Prod.mk.injEq] at same
    rw [← same.1] at entryPut sameSlab
    rw [← same.2]
    have := perm.mem_iff.mpr otherMem
    rw [cut, mem_append, mem_cons] at this
    rcases this with inBefore | rfl | inAfter
    · exact (older other inBefore r mem_cons_self).le
    · exact le_rfl
    · exact (newest other inAfter entryPut sameSlab).elim

theorem verifyRing_lrring_snd (intact : LogRec → Bool) (held : List LogRec) :
    (verifyRing intact (lrring held)).2 =
      (held[(undamaged intact held).length]?).map LogRec.seqno := by
  rw [verifyRing_snd, verifyRing_lrring, lrring_logrecs]

theorem undamaged_front (intact : LogRec → Bool) (recs : List LogRec) :
    undamaged intact recs <+: recs := by
  induction recs with
  | nil => exact nil_prefix
  | cons rec rest ih =>
    rw [undamaged]
    split
    · exact nil_prefix
    · exact (prefix_cons_inj rec).mpr ih

end

variable {cfg : Config} {cs : CsState} {recs : List LogRec}

/-! ## The filter on one reading -/

/-- The sequence number of the last record that has one. -/
def lastSeqno (seqno : ℕ) (recs : List LogRec) : ℕ :=
  recs.foldl (fun last rec => if rec.seqno ≠ 0 then rec.seqno else last) seqno

/-- The records up to the first one with the sequence number, if that is not 0. -/
def upTo (seqno : ℕ) : List LogRec → List LogRec
  | [] => []
  | rec :: rest => if rec.seqno ≠ 0 ∧ rec.seqno = seqno then [rec] else rec :: upTo seqno rest

theorem upTo_prefix (seqno : ℕ) (recs : List LogRec) : upTo seqno recs <+: recs := by
  induction recs with
  | nil => exact nil_prefix
  | cons rec rest ih =>
    rw [upTo]
    split
    · exact prefix_append [rec] rest
    · exact (prefix_cons_inj rec).mpr ih

/-- The first reading of the first log: the ring lets go what it cannot hold. -/
theorem feed_ringA (state : cs.badstate = .ringA) (recs : List LogRec) :
    feed filterCsApplyLogrec cs recs = ({ cs with
          badringa := (cs.badringa.addAll recs).1
          badseqno := lastSeqno cs.badseqno (cs.badringa.addAll recs).2 },
        (cs.badringa.addAll recs).2) := by
  induction recs generalizing cs with
  | nil => rfl
  | cons rec rest ih =>
    rw [feed_cons, Ring.addAll_cons, filterCsApplyLogrec, state]
    rcases added : cs.badringa.add rec with ⟨ring, _ | out⟩ <;> simp only <;> rw [ih rfl] <;> rfl

/-- The first reading of the last log. -/
theorem feed_ringB (state : cs.badstate = .ringB) (recs : List LogRec) :
    feed filterCsApplyLogrec cs recs =
      ({ cs with badringb := (cs.badringb.addAll recs).1 }, (cs.badringb.addAll recs).2) := by
  induction recs generalizing cs with
  | nil => rfl
  | cons rec rest ih =>
    rw [feed_cons, Ring.addAll_cons, filterCsApplyLogrec, state]
    rcases added : cs.badringb.add rec with ⟨ring, _ | out⟩ <;> simp only <;> rw [ih rfl] <;> rfl

theorem filterCsLog_off (state : cs.badstate = .off) (recs : List LogRec) :
    filterCsLog cfg cs recs = (cs, recs) := by
  have passed : feed filterCsApplyLogrec cs recs = (cs, recs) := by
    apply feed_pass
    intro rec _
    rw [filterCsApplyLogrec, state]
  rw [filterCsLog, passed]
  simp [filterCsRewindLog, state]

/-- A later reading of the first log: records pass up to the number of the last one that the ring
let go. -/
theorem filterCsLog_replayA (state : cs.badstate = .replayA) (recs : List LogRec) :
    filterCsLog cfg cs recs = (cs, upTo cs.badseqno recs) := by
  have passed : ∃ state', (state' = .replayA ∨ state' = .heldA) ∧
      feed filterCsApplyLogrec cs recs =
        ({ cs with badstate := state' }, upTo cs.badseqno recs) := by
    induction recs with
    | nil => exact ⟨.replayA, .inl rfl, by rw [feed_nil, ← state, upTo]⟩
    | cons rec rest ih =>
      rw [feed_cons, filterCsApplyLogrec, state, upTo]
      by_cases reached : rec.seqno ≠ 0 ∧ rec.seqno = cs.badseqno
      · have dropped : feed filterCsApplyLogrec { cs with badstate := .heldA } rest =
            ({ cs with badstate := .heldA }, []) := feed_drop fun _ _ => rfl
        simp only [if_pos reached, dropped]
        exact ⟨.heldA, .inr rfl, rfl⟩
      · obtain ⟨state', kind, fed⟩ := ih
        simp only [if_neg reached, fed]
        exact ⟨state', kind, rfl⟩
  obtain ⟨state', kind, fed⟩ := passed
  have same : { cs with badstate := .replayA } = cs := by rw [← state]
  rw [filterCsLog, fed]
  rcases kind with rfl | rfl <;> simp [filterCsRewindLog, same]

/-- A later reading of the last log: the ring of the first log comes with its first record. -/
theorem filterCsLog_emitA (state : cs.badstate = .emitA) (recs : List LogRec) :
    filterCsLog cfg cs recs = (cs, if recs = [] then [] else cs.badringa.toList ++ recs) := by
  have same : { cs with badstate := .emitA } = cs := by rw [← state]
  cases recs with
  | nil => simp [filterCsLog, filterCsRewindLog, state]
  | cons rec rest =>
    have passed : feed filterCsApplyLogrec { cs with badstate := .passing } rest =
        ({ cs with badstate := .passing }, rest) := feed_pass fun _ _ => rfl
    rw [filterCsLog, feed_cons, filterCsApplyLogrec, state]
    simp [passed, filterCsRewindLog, same]

/-- What a later reading does once a damaged slab was found: the record with its number and the one
behind that are dropped, again and again. With it, whether the reading ends between the two. -/
def skipBad (seqno : ℕ) : Bool → List LogRec → Bool × List LogRec
  | reached, [] => (reached, [])
  | true, _ :: rest => skipBad seqno false rest
  | false, rec :: rest =>
    if rec.seqno = seqno then skipBad seqno true rest
    else ((skipBad seqno false rest).1, rec :: (skipBad seqno false rest).2)

/-- The filter in the states 7 and 8. -/
structure AtBad (seqno : ℕ) (reached : Bool) (cs : CsState) : Prop where
  state : cs.badstate = if reached then .reachedBad else .precedesBad
  seqno : cs.badseqno = seqno

theorem AtBad.filterCsLog {seqno : ℕ} {reached : Bool} (bad : AtBad seqno reached cs) (cfg : Config)
    (recs : List LogRec) :
    AtBad seqno (skipBad seqno reached recs).1 (filterCsLog cfg cs recs).1 ∧
      (filterCsLog cfg cs recs).2 = (skipBad seqno reached recs).2 := by
  have fed : AtBad seqno (skipBad seqno reached recs).1 (feed filterCsApplyLogrec cs recs).1 ∧
      (feed filterCsApplyLogrec cs recs).2 = (skipBad seqno reached recs).2 := by
    induction recs generalizing cs reached with
    | nil => exact ⟨bad, rfl⟩
    | cons rec rest ih =>
      obtain ⟨state, number⟩ := bad
      rw [feed_cons, filterCsApplyLogrec, state]
      cases reached with
      | true => exact ih ⟨rfl, number⟩
      | false =>
        rw [skipBad]
        simp only [Bool.false_eq_true, if_false, number]
        by_cases hit : rec.seqno = seqno
        · rw [if_pos hit, if_pos hit]
          exact ih ⟨rfl, rfl⟩
        · rw [if_neg hit, if_neg hit]
          obtain ⟨after, passed⟩ := ih (⟨state, number⟩ : AtBad seqno false cs)
          exact ⟨after, congrArg (rec :: ·) passed⟩
  obtain ⟨⟨state, number⟩, passed⟩ := fed
  generalize (skipBad seqno reached recs).1 = ends at state
  cases ends with
  | false =>
    simp only [Recovery.filterCsLog, filterCsRewindLog, state, Bool.false_eq_true, if_false]
    exact ⟨⟨state, number⟩, by rw [append_nil, passed]⟩
  | true =>
    simp only [Recovery.filterCsLog, filterCsRewindLog, state, if_true]
    exact ⟨⟨rfl, number⟩, by rw [append_nil, passed]⟩

/-! ## What later readings hand on -/

/-- The next readings, as many as given, all hand on the same, as far as it is looked at. -/
def HandsOn (cfg : Config) (view : List LogRec → List LogRec) (recs out : List LogRec) :
    ℕ → CsState → Prop
  | 0, _ => True
  | readings + 1, cs => view (filterCsLog cfg cs recs).2 = out ∧
      HandsOn cfg view recs out readings (filterCsLog cfg cs recs).1

variable {view : List LogRec → List LogRec} {out : List LogRec} {readings : ℕ}

/-- A filter that is back where it was hands on the same every time. -/
theorem HandsOn.of_fixed (fixed : filterCsLog cfg cs recs = (cs, out)) (readings : ℕ) :
    HandsOn cfg view recs (view out) readings cs := by
  induction readings with
  | zero => trivial
  | succ readings ih =>
    rw [HandsOn, fixed]
    exact ⟨rfl, ih⟩

theorem handsOn_fixed {out' : List LogRec} (fixed : filterCsLog cfg cs recs = (cs, out')) :
    HandsOn cfg view recs out (readings + 1) cs ↔ view out' = out := by
  constructor
  · exact fun holds => (congrArg (view ·.2) fixed).symm.trans holds.1
  · rintro rfl
    exact .of_fixed fixed _

/-- The states 7 and 8 take turns. -/
theorem AtBad.handsOn {seqno : ℕ} (bad : AtBad seqno false cs) :
    HandsOn cfg view recs out (readings + 1) cs ↔ view (skipBad seqno false recs).2 = out ∧
      (readings = 0 ∨ (skipBad seqno false recs).1 = false ∨
        view (skipBad seqno true recs).2 = out) := by
  obtain ⟨after, first⟩ := bad.filterCsLog cfg recs
  constructor
  · rintro ⟨holds, later⟩
    refine ⟨first ▸ holds, ?_⟩
    cases readings with
    | zero => exact .inl rfl
    | succ readings =>
      cases ends : (skipBad seqno false recs).1 with
      | false => exact .inr (.inl rfl)
      | true =>
        rw [ends] at after
        exact .inr (.inr ((after.filterCsLog cfg recs).2 ▸ later.1))
  · rintro ⟨holds, once | stays | either⟩
    · subst once
      exact ⟨first ▸ holds, trivial⟩
    · suffices all : ∀ readings cs, AtBad seqno false cs → HandsOn cfg view recs out readings cs from
        all _ cs bad
      intro readings
      induction readings with
      | zero => exact fun _ _ => trivial
      | succ readings ih =>
        intro cs bad
        obtain ⟨after, passed⟩ := bad.filterCsLog cfg recs
        exact ⟨passed ▸ holds, ih _ (stays ▸ after)⟩
    · suffices all : ∀ readings reached cs, AtBad seqno reached cs →
          HandsOn cfg view recs out readings cs from all _ false cs bad
      intro readings
      induction readings with
      | zero => exact fun _ _ _ => trivial
      | succ readings ih =>
        intro reached cs bad
        obtain ⟨after, passed⟩ := bad.filterCsLog cfg recs
        refine ⟨passed ▸ ?_, ih _ _ after⟩
        cases reached with
        | false => exact holds
        | true => exact either

/-- Every second record, from the first on, carries the number. -/
def Alternates (seqno : ℕ) : List LogRec → Prop
  | [] => True
  | [rec] => rec.seqno = seqno
  | rec :: _ :: rest => rec.seqno = seqno ∧ Alternates seqno rest

section

variable {seqno : ℕ} {rest : List LogRec}

theorem skipBad_ne (reached : Bool) (recs : List LogRec) :
    ∀ rec ∈ (skipBad seqno reached recs).2, rec.seqno ≠ seqno := by
  fun_induction skipBad seqno reached recs with
  | case1 => simp
  | case2 _ _ ih => exact ih
  | case3 _ _ _ ih => exact ih
  | case4 rec rest other ih => exact forall_mem_cons.mpr ⟨other, ih⟩

theorem skipBad_sublist (reached : Bool) (recs : List LogRec) :
    (skipBad seqno reached recs).2.Sublist recs := by
  fun_induction skipBad seqno reached recs with
  | case1 => exact .slnil
  | case2 rec _ ih => exact ih.cons rec
  | case3 rec _ _ ih => exact ih.cons rec
  | case4 rec _ _ ih => exact ih.cons_cons rec

theorem skipBad_append (before : ∀ rec ∈ out, rec.seqno ≠ seqno) (rest : List LogRec) :
    skipBad seqno false (out ++ rest) =
      ((skipBad seqno false rest).1, out ++ (skipBad seqno false rest).2) := by
  induction out with
  | nil => rfl
  | cons rec out ih =>
    obtain ⟨other, before⟩ := forall_mem_cons.mp before
    rw [cons_append, skipBad, if_neg other, ih before]
    rfl

theorem skipBad_eq_nil_iff :
    (skipBad seqno false rest).2 = [] ↔ Alternates seqno rest := by
  fun_induction Alternates seqno rest with
  | case1 => simp [skipBad]
  | case2 rec => by_cases hit : rec.seqno = seqno <;> simp [skipBad, hit]
  | case3 rec _ rest ih => by_cases hit : rec.seqno = seqno <;> simp [skipBad, hit, ih]

theorem skipBad_even (alternates : Alternates seqno rest) :
    (skipBad seqno false rest).1 = false ↔ Even rest.length := by
  fun_induction Alternates seqno rest with
  | case1 => simp [skipBad]
  | case2 rec => simp [skipBad, show rec.seqno = seqno from alternates]
  | case3 rec next rest ih =>
    simp only [skipBad, alternates.1, if_true, length_cons, ih alternates.2]
    simp [Nat.even_add_one]

/-- A later reading hands on what stands before the damaged record, if no other record there has its
number and every second one behind it does. -/
theorem skipBad_eq_iff : (skipBad seqno false (out ++ rest)).2 = out ↔
      (∀ rec ∈ out, rec.seqno ≠ seqno) ∧ Alternates seqno rest := by
  constructor
  · intro same
    have before : ∀ rec ∈ out, rec.seqno ≠ seqno := same ▸ skipBad_ne false _
    rw [skipBad_append before, append_right_eq_self] at same
    exact ⟨before, skipBad_eq_nil_iff.mp same⟩
  · rintro ⟨before, alternates⟩
    rw [skipBad_append before, skipBad_eq_nil_iff.mpr alternates, append_nil]

theorem Alternates.of_forall (all : ∀ rec ∈ rest, rec.seqno = seqno) : Alternates seqno rest := by
  fun_induction Alternates seqno rest with
  | case1 => trivial
  | case2 rec => exact all rec mem_cons_self
  | case3 rec next rest ih =>
    exact ⟨all rec mem_cons_self,
      ih fun later mem => all later (mem_cons_of_mem _ (mem_cons_of_mem _ mem))⟩

theorem Alternates.forall_of_tail {first : LogRec} (alternates : Alternates seqno (first :: rest))
    (tail : Alternates seqno rest) : ∀ rec ∈ first :: rest, rec.seqno = seqno := by
  induction rest generalizing first with
  | nil => exact forall_mem_cons.mpr ⟨alternates, by simp⟩
  | cons next rest ih => exact forall_mem_cons.mpr ⟨alternates.1, ih tail alternates.2⟩

/-- A reading that starts between the two does so only if all that is read carries the number. -/
theorem skipBad_true_eq_iff (before : ∀ rec ∈ out, rec.seqno ≠ seqno)
    (alternates : Alternates seqno rest) (odd : ¬Even rest.length) :
    (skipBad seqno true (out ++ rest)).2 = out ↔ out = [] ∧ ∀ rec ∈ rest, rec.seqno = seqno := by
  cases out with
  | cons rec out =>
    have shorter : (skipBad seqno true (rec :: out ++ rest)).2 = out := by
      rw [cons_append, skipBad]
      exact skipBad_eq_iff.mpr ⟨(forall_mem_cons.mp before).2, alternates⟩
    rw [shorter]
    simp
  | nil =>
    cases rest with
    | nil => simp at odd
    | cons first rest =>
      rw [nil_append, skipBad, skipBad_eq_nil_iff, eq_self_iff_true, true_and]
      exact ⟨alternates.forall_of_tail, fun all =>
        .of_forall fun rec mem => all rec (mem_cons_of_mem _ mem)⟩

end

/-! ## Two logs -/

section

/-- The number of records that leave the ring when these are all read. -/
def leaving (cfg : Config) (recs : List LogRec) : ℕ := recs.length - (cfg.ringSize - 1)

/-- The log as it is to be recovered: cut off before the first held record with a damaged slab. -/
def effectiveLog (cfg : Config) (recs : List LogRec) : List LogRec :=
  if cfg.chksumObject then
    recs.take (leaving cfg recs) ++ undamaged cfg.intact (recs.drop (leaving cfg recs))
  else recs

/-- The record at which the log is cut off, if it is. -/
def damaged (cfg : Config) (recs : List LogRec) : Option LogRec :=
  recs[(effectiveLog cfg recs).length]?

/-- The records of the old log that are handed on while it is read for the first time. -/
def firstPart (cfg : Config) (oldRecs : List LogRec) : List LogRec :=
  if cfg.chksumObject then oldRecs.take (leaving cfg oldRecs) else oldRecs

/-- The records of the old log that ring A holds. -/
def heldPart (cfg : Config) (oldRecs : List LogRec) : List LogRec :=
  if cfg.chksumObject then oldRecs.drop (leaving cfg oldRecs) else []

/-- What a later reading hands on of the old log, from the records it reads. -/
def replayed (cfg : Config) (oldRecs again : List LogRec) : List LogRec :=
  if cfg.chksumObject then upTo (lastSeqno 0 (firstPart cfg oldRecs)) again else again

theorem firstPart_append_heldPart (cfg : Config) (oldRecs : List LogRec) :
    firstPart cfg oldRecs ++ heldPart cfg oldRecs = oldRecs := by
  rw [firstPart, heldPart]
  split <;> simp

theorem replayed_front (cfg : Config) (oldRecs again : List LogRec) :
    replayed cfg oldRecs again <+: again := by
  rw [replayed]
  split
  · exact upTo_prefix _ _
  · exact prefix_refl _

theorem effectiveLog_front (cfg : Config) (recs : List LogRec) : effectiveLog cfg recs <+: recs := by
  rw [effectiveLog]
  split
  · conv_rhs => rw [← take_append_drop (leaving cfg recs) recs]
    exact (prefix_append_right_inj _).mpr (undamaged_front _ _)
  · exact prefix_refl _

theorem effectiveLog_eq_take (cfg : Config) (recs : List LogRec) :
    effectiveLog cfg recs = recs.take (effectiveLog cfg recs).length :=
  prefix_iff_eq_take.mp (effectiveLog_front cfg recs)

theorem effectiveLog_of_undamaged (whole : damaged cfg recs = none) : effectiveLog cfg recs = recs := by
  rw [effectiveLog_eq_take, take_of_length_le (List.getElem?_eq_none_iff.mp whole)]

/-- The filter once the first log was read: ring A holds its last records. -/
structure HoldsTail (cfg : Config) (oldRecs : List LogRec) (cs : CsState) : Prop where
  state : cs.badstate = .replayA
  valid : cs.badringa.Valid
  size : cs.badringa.size = cfg.ringSize
  held : cs.badringa.toList = oldRecs.drop (leaving cfg oldRecs)
  seqno : cs.badseqno = lastSeqno 0 (oldRecs.take (leaving cfg oldRecs))

theorem filterCsLog_first (chksum : cfg.chksumObject = true) (oldRecs : List LogRec) :
    HoldsTail cfg oldRecs (filterCsLog cfg (filterCsInitialize cfg) oldRecs).1 ∧
      (filterCsLog cfg (filterCsInitialize cfg) oldRecs).2 =
        oldRecs.take (leaving cfg oldRecs) := by
  have start : (filterCsInitialize cfg).badstate = .ringA := by simp [filterCsInitialize, chksum]
  have valid : (filterCsInitialize cfg).badringa.Valid := ⟨cfg.ringSize_pos, cfg.ringSize_pos⟩
  obtain ⟨gone, kept⟩ := Ring.addAll_eq valid oldRecs
  have empty : (filterCsInitialize cfg).badringa.toList = [] := rfl
  have none : (filterCsInitialize cfg).badringa.count = 0 := rfl
  rw [empty, none, nil_append, zero_add] at gone kept
  rw [filterCsLog, feed_ringA start]
  simp only [filterCsRewindLog, start, append_nil]
  refine ⟨⟨rfl, valid.addAll oldRecs, Ring.size_addAll oldRecs, kept, ?_⟩, gone⟩
  simp only [gone]
  rfl

variable {oldRecs : List LogRec}

/-- The first chunk gets the effective log, and the filter knows where it was cut off. -/
theorem filterCsLog_last (chksum : cfg.chksumObject = true)
    (tail : HoldsTail cfg oldRecs cs) (curRecs : List LogRec) :
    let next := filterCsLog cfg (filterCsSwapLog cs) curRecs
    oldRecs.take (leaving cfg oldRecs) ++ next.2 = effectiveLog cfg (oldRecs ++ curRecs) ∧
      match damaged cfg (oldRecs ++ curRecs) with
      | none => next.1.badstate = .emitA ∧
          next.1.badringa.toList = oldRecs.drop (leaving cfg oldRecs)
      | some bad => AtBad bad.seqno false next.1 := by
  set rest := oldRecs.drop (leaving cfg oldRecs) ++ curRecs with restDef
  have swapped : filterCsSwapLog cs = { cs with badringb := cs.badringa, badstate := .ringB } := by
    rw [filterCsSwapLog, tail.state]
  obtain ⟨gone, kept⟩ := Ring.addAll_eq tail.valid curRecs
  have leave : cs.badringa.count + curRecs.length - (cs.badringa.size - 1) = leaving cfg rest := by
    rw [← Ring.length_toList, tail.held, tail.size, ← length_append]
    rfl
  rw [tail.held, leave, ← restDef] at gone kept
  have split : oldRecs ++ curRecs = oldRecs.take (leaving cfg oldRecs) ++
      (rest.take (leaving cfg rest) ++ rest.drop (leaving cfg rest)) := by
    rw [take_append_drop, restDef, ← append_assoc, take_append_drop]
  have whole : effectiveLog cfg (oldRecs ++ curRecs) = oldRecs.take (leaving cfg oldRecs) ++
        (rest.take (leaving cfg rest) ++ undamaged cfg.intact (rest.drop (leaving cfg rest))) := by
    -- what the rings let go of two logs in a row is what one ring lets go of both
    have leaves : leaving cfg (oldRecs ++ curRecs) =
        (oldRecs.take (leaving cfg oldRecs)).length + leaving cfg rest := by
      simp only [restDef, leaving, length_append, length_take, length_drop]
      omega
    rw [take_append_drop] at split
    rw [effectiveLog, if_pos chksum, leaves, split, take_length_add_append,
      drop_length_add_append, append_assoc]
  have stopped : damaged cfg (oldRecs ++ curRecs) = (rest.drop (leaving cfg rest))[
      (undamaged cfg.intact (rest.drop (leaving cfg rest))).length]? := by
    rw [damaged, whole, split, length_append, length_append, getElem?_append_right (by omega),
      Nat.add_sub_cancel_left, getElem?_append_right (by omega), Nat.add_sub_cancel_left]
  have verified := verifyRing_lrring cfg.intact (rest.drop (leaving cfg rest))
  have number := verifyRing_lrring_snd cfg.intact (rest.drop (leaving cfg rest))
  rw [swapped, filterCsLog, feed_ringB rfl]
  simp only [filterCsRewindLog, gone, kept, whole]
  rw [← stopped] at number
  rcases outcome : verifyRing cfg.intact (lrring (rest.drop (leaving cfg rest))) with ⟨recs, _ | seqno⟩
  · rw [outcome] at verified number
    rw [Option.map_eq_none_iff.mp number.symm]
    simp only at verified ⊢
    exact ⟨by rw [verified], trivial, tail.held⟩
  · rw [outcome] at verified number
    obtain ⟨bad, found, rfl⟩ := Option.map_eq_some_iff.mp number.symm
    rw [found]
    simp only at verified ⊢
    exact ⟨by rw [verified], rfl, rfl⟩

/-- What the filter hands on of the two logs, in the first reading and in all later ones. -/
theorem filterCsLog_both (cfg : Config) (oldRecs curRecs : List LogRec) : ∃ csOld csCur dCur,
      filterCsLog cfg (filterCsInitialize cfg) oldRecs = (csOld, firstPart cfg oldRecs) ∧
      filterCsLog cfg (filterCsSwapLog csOld) curRecs = (csCur, dCur) ∧
      firstPart cfg oldRecs ++ dCur = effectiveLog cfg (oldRecs ++ curRecs) ∧
      (∀ again, filterCsLog cfg csOld again = (csOld, replayed cfg oldRecs again)) ∧
      match damaged cfg (oldRecs ++ curRecs) with
      | none => ∀ again, filterCsLog cfg csCur again =
          (csCur, if again = [] then [] else heldPart cfg oldRecs ++ again)
      | some bad => AtBad bad.seqno false csCur := by
  by_cases chksum : cfg.chksumObject = true
  · obtain ⟨tail, gone⟩ := filterCsLog_first chksum oldRecs
    rcases first : filterCsLog cfg (filterCsInitialize cfg) oldRecs with ⟨csOld, dOld⟩
    rw [first] at tail gone
    obtain ⟨cut, state⟩ := filterCsLog_last chksum tail curRecs
    rcases last : filterCsLog cfg (filterCsSwapLog csOld) curRecs with ⟨csCur, dCur⟩
    rw [last] at cut state
    have part : firstPart cfg oldRecs = oldRecs.take (leaving cfg oldRecs) := if_pos chksum
    rw [← part] at gone cut
    refine ⟨csOld, csCur, dCur, congrArg (Prod.mk csOld) gone, last, cut, fun again => ?_, ?_⟩
    · rw [filterCsLog_replayA tail.state, tail.seqno, replayed, if_pos chksum, part]
    · cases found : damaged cfg (oldRecs ++ curRecs) with
      | none =>
        rw [found] at state
        intro again
        rw [filterCsLog_emitA state.1, state.2, heldPart, if_pos chksum]
      | some bad =>
        rw [found] at state
        exact state
  · have off : (filterCsInitialize cfg).badstate = .off := by simp [filterCsInitialize, chksum]
    have swap : filterCsSwapLog (filterCsInitialize cfg) = filterCsInitialize cfg := by
      rw [filterCsSwapLog, off]
    have whole : effectiveLog cfg (oldRecs ++ curRecs) = oldRecs ++ curRecs := if_neg chksum
    have none : damaged cfg (oldRecs ++ curRecs) = none := by
      rw [damaged, whole]
      exact List.getElem?_eq_none_iff.mpr le_rfl
    rw [none]
    refine ⟨_, _, _, by rw [filterCsLog_off off, firstPart, if_neg chksum],
      by rw [swap, filterCsLog_off off], by rw [firstPart, if_neg chksum, whole], ?_, ?_⟩
    · intro again
      rw [filterCsLog_off off, replayed, if_neg chksum]
    · intro again
      rw [filterCsLog_off off, heldPart, if_neg chksum]
      split
      · next empty => rw [empty]
      · rfl

end

/-! ## The same for every chunk -/

/-- Every later reading hands on what stands before the damaged record, and no more: no record there
carries its number, every second one from it on does, and where there are more than two chunks the
reading ends as it began, or all that is read carries the number. -/
structure StopsAt (seqno chunks : ℕ) (before again : List LogRec) : Prop where
  reached : before <+: again
  first : ∀ rec ∈ before, rec.seqno ≠ seqno
  alternates : Alternates seqno (again.drop before.length)
  turns : chunks ≤ 2 ∨ Even (again.drop before.length).length ∨
    (before = [] ∧ ∀ rec ∈ again, rec.seqno = seqno)

theorem stopsAt_iff {seqno : ℕ} {before again : List LogRec} (reached : before <+: again) :
    StopsAt seqno (readings + 2) before again ↔ (skipBad seqno false again).2 = before ∧
      (readings = 0 ∨ (skipBad seqno false again).1 = false ∨
        (skipBad seqno true again).2 = before) := by
  obtain ⟨rest, rfl⟩ := reached
  rw [skipBad_eq_iff]
  constructor
  · rintro ⟨-, first, alternates, turns⟩
    rw [drop_left] at alternates turns
    refine ⟨⟨first, alternates⟩, ?_⟩
    rw [skipBad_append first, skipBad_even alternates]
    rcases turns with few | even | ⟨rfl, all⟩
    · exact .inl (by omega)
    · exact .inr (.inl even)
    · by_cases even : Even rest.length
      · exact .inr (.inl even)
      · exact .inr (.inr ((skipBad_true_eq_iff first alternates even).mpr ⟨rfl, all⟩))
  · rintro ⟨⟨first, alternates⟩, turns⟩
    rw [skipBad_append first, skipBad_even alternates] at turns
    refine ⟨prefix_append _ _, first, by rwa [drop_left], ?_⟩
    rw [drop_left]
    rcases turns with rfl | even | starts
    · exact .inl le_rfl
    · exact .inr (.inl even)
    · by_cases even : Even rest.length
      · exact .inr (.inl even)
      · obtain ⟨rfl, all⟩ := (skipBad_true_eq_iff first alternates even).mp starts
        exact .inr (.inr ⟨rfl, all⟩)

/-- What makes every chunk get the same log, from the records of the two logs and those that are read
again. There is one chunk only; or nothing is damaged, and either the current log is read again and
what left ring A is found again, or it is empty and all of the old log passes; or the log is cut off,
and later readings stop where the first one did. -/
def SameForEveryChunk (cfg : Config) (oldRecs oldAgain curRecs curAgain : List LogRec) : Prop :=
  cfg.numChunks ≤ 1 ∨
    match damaged cfg (oldRecs ++ curRecs) with
    | none =>
      (replayed cfg oldRecs oldAgain = firstPart cfg oldRecs ∧ curAgain = curRecs ∧ curRecs ≠ []) ∨
        (replayed cfg oldRecs oldAgain = oldRecs ∧ curRecs = [])
    | some bad =>
      let count := (effectiveLog cfg (oldRecs ++ curRecs)).length
      replayed cfg oldRecs oldAgain = oldRecs.take count ∧
        StopsAt bad.seqno cfg.numChunks (curRecs.take (count - oldRecs.length)) curAgain

section

variable {a a' b b' oldRecs oldAgain curRecs curAgain : List LogRec}

/-- Records of two passes do not mix. -/
theorem append_inj_of_pass (first : ∀ rec ∈ a, rec.pass = 1) (first' : ∀ rec ∈ a', rec.pass = 1)
    (second : ∀ rec ∈ b, rec.pass = 2) (second' : ∀ rec ∈ b', rec.pass = 2)
    (same : a ++ b = a' ++ b') : a = a' ∧ b = b' := by
  have left : ∀ {a b : List LogRec}, (∀ rec ∈ a, rec.pass = 1) → (∀ rec ∈ b, rec.pass = 2) →
      (a ++ b).filter (·.pass = 1) = a := by
    intro a b first second
    rw [filter_append, filter_eq_self.mpr (by simpa using first),
      filter_eq_nil_iff.mpr (by simp +contextual [second]), append_nil]
  have fronts : a = a' := by rw [← left first second, same, left first' second']
  exact ⟨fronts, append_cancel_left (fronts ▸ same)⟩

variable (oldMarked : ∀ rec ∈ oldRecs, rec.pass = 1) (curMarked : ∀ rec ∈ curRecs, rec.pass = 2)
  (oldPrefix : oldAgain <+: oldRecs) (curPrefix : curAgain <+: curRecs)

include oldMarked curMarked oldPrefix curPrefix

/-- The readings for the later chunks come to the effective log just if the condition holds. -/
theorem handsOn_iff_same (several : cfg.numChunks = readings + 2) :
    (match damaged cfg (oldRecs ++ curRecs) with
      | none => ∀ again, filterCsLog cfg cs again =
          (cs, if again = [] then [] else heldPart cfg oldRecs ++ again)
      | some bad => AtBad bad.seqno false cs) →
    ((∃ out, replayed cfg oldRecs oldAgain ++ out = effectiveLog cfg (oldRecs ++ curRecs) ∧
        HandsOn cfg id curAgain out (readings + 1) cs) ↔
      SameForEveryChunk cfg oldRecs oldAgain curRecs curAgain) := by
  intro state
  have replayedMarked : ∀ rec ∈ replayed cfg oldRecs oldAgain, rec.pass = 1 := fun rec mem =>
    oldMarked rec (oldPrefix.subset ((replayed_front cfg oldRecs oldAgain).subset mem))
  rw [SameForEveryChunk, or_iff_right (by omega)]
  cases found : damaged cfg (oldRecs ++ curRecs) with
  | none =>
    rw [found] at state
    simp only at state ⊢
    rw [effectiveLog_of_undamaged found]
    simp only [handsOn_fixed (state curAgain), id]
    constructor
    · rintro ⟨out, whole, rfl⟩
      split at whole
      · obtain ⟨all, empty⟩ := append_inj_of_pass replayedMarked oldMarked (by simp) curMarked whole
        exact .inr ⟨all, empty.symm⟩
      · next some =>
        have heldMarked : ∀ rec ∈ replayed cfg oldRecs oldAgain ++ heldPart cfg oldRecs,
            rec.pass = 1 := by
          refine forall_mem_append.mpr ⟨replayedMarked, fun rec mem => oldMarked rec ?_⟩
          rw [← firstPart_append_heldPart cfg oldRecs]
          exact mem_append_right _ mem
        rw [← append_assoc] at whole
        obtain ⟨all, same⟩ := append_inj_of_pass heldMarked oldMarked
          (fun rec mem => curMarked rec (curPrefix.subset mem)) curMarked whole
        refine .inl ⟨?_, same, same ▸ some⟩
        exact append_cancel_right (all.trans (firstPart_append_heldPart cfg oldRecs).symm)
    · rintro (⟨part, same, some⟩ | ⟨all, empty⟩)
      · refine ⟨_, ?_, rfl⟩
        rw [part, same, if_neg some, ← append_assoc, firstPart_append_heldPart]
      · have none : curAgain = [] := prefix_nil.mp (empty ▸ curPrefix)
        refine ⟨_, ?_, rfl⟩
        rw [all, none, if_pos rfl, empty]
  | some bad =>
    rw [found] at state
    simp only at state ⊢
    simp only [state.handsOn, several, id]
    have cut := effectiveLog_eq_take cfg (oldRecs ++ curRecs)
    rw [take_append] at cut
    constructor
    · rintro ⟨out, whole, passed, turns⟩
      have outSub : out.Sublist curAgain := passed ▸ skipBad_sublist false curAgain
      obtain ⟨all, same⟩ := append_inj_of_pass replayedMarked
        (fun rec mem => oldMarked rec (mem_of_mem_take mem))
        (fun rec mem => curMarked rec (curPrefix.subset (outSub.subset mem)))
        (fun rec mem => curMarked rec (mem_of_mem_take mem)) (whole.trans cut)
      rw [← same]
      refine ⟨all, (stopsAt_iff (prefix_of_prefix_length_le ?_ curPrefix outSub.length_le)).mpr
        ⟨passed, turns⟩⟩
      exact same ▸ take_prefix _ _
    · rintro ⟨all, stops⟩
      obtain ⟨passed, turns⟩ := (stopsAt_iff stops.reached).mp stops
      exact ⟨_, by rw [all, ← cut], passed, turns⟩

end

end Zetascale.Recovery
