import Zetascale.Flash.SlabSet

/-!
# Commits that fail

A transaction that gets too big or touches a second shard fails when it is
committed. The failed commit writes nothing to the log, and undoes nothing
either: what the calls did to hash table and slabs stays.
-/

namespace Zetascale.Flash

open Function HashHandle List Option Machine Store Shard

universe u

variable {K : Type u} {i : ℕ} {ids : List ℕ}

section

/-- Calls on these shards do not make a transaction fail. -/
def WithinLimits (ids : List ℕ) : Prop :=
  ids.length ≤ trxLimit ∧ ∀ i ∈ ids, ∀ j ∈ ids, i = j

/-- The transaction has seen records of these shards. -/
structure Tracked (t : TrxState) (ids : List ℕ) : Prop where
  shard : t.s = ids.head?
  okay : t.status = .okay ↔ WithinLimits ids
  length : t.status = .okay → t.trtab.length = ids.length

theorem WithinLimits.before {i : ℕ} (within : WithinLimits (ids ++ [i])) : WithinLimits ids := by
  refine ⟨?_, fun j mem k mem' => within.2 j (mem_append_left _ mem) k (mem_append_left _ mem')⟩
  have := within.1
  rw [length_append] at this
  exact Nat.le_of_add_right_le this

/-- A record more for the same shard. -/
theorem withinLimits_snoc {i : ℕ} (same : ∀ j ∈ ids, j = i) :
    WithinLimits (ids ++ [i]) ↔ ids.length < trxLimit := by
  have all : ∀ j ∈ ids ++ [i], j = i :=
    forall_mem_append.mpr ⟨same, forall_mem_singleton.mpr rfl⟩
  rw [WithinLimits, length_append, length_singleton]
  exact ⟨fun within => within.1, fun room => ⟨room, fun j mem k mem' =>
    (all j mem).trans (all k mem').symm⟩⟩

variable {t : TrxState}

/-- One more record. -/
theorem Tracked.snoc (tracked : Tracked t ids) (r : TrxRec) :
    Tracked (trxInProgress t i r) (ids ++ [i]) := by
  obtain ⟨first, status, trtab⟩ := t
  obtain ⟨shard, okay, length⟩ := tracked
  cases ids with
  | nil =>
    obtain rfl : first = none := shard
    obtain rfl : status = .okay :=
      okay.mpr ⟨Nat.zero_le _, nofun⟩
    obtain rfl : trtab = [] := length_eq_zero_iff.mp (length rfl)
    have within : WithinLimits ([] ++ [i]) :=
      (withinLimits_snoc fun _ mem => (not_mem_nil mem).elim).mpr (by decide)
    exact ⟨rfl, ⟨fun _ => within, fun _ => rfl⟩, fun _ => rfl⟩
  | cons a rest =>
    obtain rfl : first = some a := shard
    by_cases same : a = i
    · subst same
      simp only [trxInProgress, if_true]
      by_cases isOkay : status = .okay
      · subst isOkay
        have within := okay.mp rfl
        have all : ∀ j ∈ a :: rest, j = a := fun j mem => within.2 j mem a mem_cons_self
        by_cases room : trtab.length < trxLimit
        · rw [TrxState.capture, if_pos rfl, if_pos room]
          refine ⟨rfl, ⟨fun _ => (withinLimits_snoc all).mpr (length rfl ▸ room), fun _ => rfl⟩,
            fun _ => ?_⟩
          rw [length_append, length_append, length rfl]
          rfl
        · rw [TrxState.capture, if_pos rfl, if_neg room]
          exact ⟨rfl, ⟨nofun, fun within' =>
            (room (length rfl ▸ (withinLimits_snoc all).mp within')).elim⟩, nofun⟩
      · rw [TrxState.capture, if_neg isOkay]
        exact ⟨rfl, ⟨fun ok => (isOkay ok).elim, fun within => (isOkay (okay.mpr within.before)).elim⟩,
          fun ok => (isOkay ok).elim⟩
    · simp only [trxInProgress, if_neg same]
      exact ⟨rfl, ⟨nofun, fun within => (same (within.2 a mem_cons_self i
        (mem_append_right _ (mem_singleton_self i)))).elim⟩, nofun⟩

end

variable [DecidableEq K] {hashb : K → ℕ} {result : SetResult K} {s : Shard K} {req : Request K}

/-- What a call that returns can have done. -/
inductive Effect (hashb : K → ℕ) (s : Shard K) (req : Request K) : SetResult K → Prop
  | silent {result : SetResult K} : result.logged = none → result.shard.handle = s.handle →
      result.shard.bitmap = s.bitmap →
      (∀ blk, s.bitmap blk = true → result.shard.keyAt blk = s.keyAt blk) →
      Effect hashb s req result
  | put {result : SetResult K} {r : TrxRec} {blk : ℕ} : result.logged = some r →
      s.bitmap blk = false → result.shard.bitmap = update s.bitmap blk true →
      Effect hashb s req result
  | delete {h' : HashHandle} {he : EntryPtr} {rc : FlashRc} {r : TrxRec} :
      s.bucketOf hashb req.key req.cntrId < s.handle.buckets →
      hashTableGet hashb s req.key req.cntrId = some he →
      hashEntryDelete s.handle he (hashck hashb req.key req.cntrId % s.handle.hashSize) = some h' →
      Effect hashb s req ⟨{ s with handle := h' }, rc, some r⟩

/-- An insertion that finds no room changes nothing. -/
theorem insertEntry_full {isset : ℕ → Bool} {h h' : HashHandle} {syndrome : ℕ} {e : HashEntry}
    (full : insertEntry isset h syndrome e = some (h', false)) : h' = h := by
  unfold insertEntry at full
  split at full
  · cases full
  · rename_i h'' noEntry
    cases full
    unfold hashEntryInsertByKey at noEntry
    by_cases bounds : h.buckets ≤ syndrome % h.hashSize / bucketSize
    · rw [if_pos bounds] at noEntry
      cases noEntry
    rw [if_neg bounds] at noEntry
    split at noEntry
    · cases noEntry
    · split at noEntry
      · cases noEntry
      · cases noEntry
      · by_cases left : h.hashTableIdx < h.maxHashTableIdx
        · rw [if_pos left] at noEntry
          cases noEntry
        rw [if_neg left] at noEntry
        split at noEntry
        · cases noEntry
        · cases noEntry
        · cases noEntry
          rfl
  · obtain ⟨_, _, pair⟩ := map_eq_some_iff.mp full
    cases pair

/-- A put takes a free block. -/
theorem slabPut_effect {payload : Payload} {blk syndrome : ℕ} (free : s.bitmap blk = false)
    {found : Option EntryPtr} (returned : slabPut s req syndrome payload blk found = some result) :
    Effect hashb s req result := by
  cases found with
  | some he =>
    obtain ⟨h', _, rfl⟩ := map_eq_some_iff.mp returned
    exact .put rfl free rfl
  | none =>
    obtain ⟨⟨h', inserted⟩, done, rfl⟩ := map_eq_some_iff.mp returned
    cases inserted with
    | true => exact .put rfl free rfl
    | false =>
      obtain rfl := insertEntry_full done
      refine .silent rfl rfl ?_ fun blk' allocated => ?_
      · simp only [dealloc, written, Bool.false_eq_true, if_false]
        rw [update_idem, ← free, update_eq_self]
      · refine update_of_ne (fun same => ?_) _ _
        cases free.symm.trans (same ▸ allocated)

/-- So every call has one of these effects. -/
theorem slabSet_effect (legal : req.Legal s) (returned : slabSet hashb s req = some result) :
    Effect hashb s req result := by
  unfold slabSet at returned
  dsimp only at returned
  by_cases bounds : s.handle.buckets ≤ hashck hashb req.key req.cntrId % s.handle.hashSize / bucketSize
  · rw [if_pos bounds] at returned
    cases returned
  rw [if_neg bounds] at returned
  have silent : ∀ {rc}, some (⟨s, rc, none⟩ : SetResult K) = some result →
      Effect hashb s req result := by
    rintro rc ⟨⟩
    exact .silent rfl rfl rfl fun _ _ => rfl
  split at returned
  · exact silent returned
  · rename_i he _ get
    split_ifs at returned
    · exact silent returned
    · obtain ⟨h', deleted, rfl⟩ := map_eq_some_iff.mp returned
      exact .delete (not_le.mp bounds) get deleted
  · rename_i payload isPut
    split_ifs at returned
    · exact silent returned
    · exact silent returned
    · exact silent returned
    · split at returned
      · exact silent returned
      · rename_i blk alloc
        exact slabPut_effect ((legal.2 payload isPut).2 blk alloc).2 returned

/-- The shards of the calls that log a record. -/
def loggedOn (hashb : K → ℕ) : Store K → List (ℕ × Request K) → List ℕ
  | _, [] => []
  | st, op :: rest =>
    match slabSet hashb (st.shards op.1) op.2 with
    | none => []
    | some result =>
      (if result.logged.isSome then [op.1] else []) ++ loggedOn hashb (st.after op.1 result) rest

/-- What a call asks is legal. -/
abbrev LegalCall (st : Store K) (op : ℕ × Request K) : Prop := op.2.Legal (st.shards op.1)

variable {st final : Store K} {ops : List (ℕ × Request K)}

theorem run_first {op : ℕ × Request K} {rest : List (ℕ × Request K)}
    (admitted : Machine.Admitted (Store.step hashb) LegalCall st (op :: rest))
    (reached : run (Store.step hashb) st (op :: rest) = some final) :
    ∃ result, slabSet hashb (st.shards op.1) op.2 = some result ∧
      Effect hashb (st.shards op.1) op.2 result ∧
      Machine.Admitted (Store.step hashb) LegalCall (st.after op.1 result) rest ∧
      run (Store.step hashb) (st.after op.1 result) rest = some final ∧
      loggedOn hashb st (op :: rest) = (if result.logged.isSome then [op.1] else []) ++
        loggedOn hashb (st.after op.1 result) rest := by
  obtain ⟨next, taken, onward⟩ := run_cons_eq_some.mp reached
  have later := admitted.2 next taken
  obtain ⟨result, returned, rfl⟩ := map_eq_some_iff.mp taken
  exact ⟨result, returned, slabSet_effect admitted.1 returned, later, onward,
    by simp [loggedOn, returned]⟩

variable (admitted : Machine.Admitted (Store.step hashb) LegalCall st ops)
  (reached : run (Store.step hashb) st ops = some final)

include admitted reached in
/-- The status of the transaction follows the shards of the records. -/
theorem Tracked.run (tracked : Tracked st.trx ids) :
    Tracked final.trx (ids ++ loggedOn hashb st ops) := by
  induction ops generalizing st ids with
  | nil =>
    cases reached
    rwa [loggedOn, append_nil]
  | cons op rest ih =>
    obtain ⟨result, _, _, later, onward, logged⟩ := run_first admitted reached
    rw [logged, ← append_assoc]
    refine ih later onward ?_
    cases isLogged : result.logged with
    | none =>
      simp only [Store.after, isLogged, elim_none, isSome_none, Bool.false_eq_true,
        if_false, append_nil]
      exact tracked
    | some r =>
      simp only [Store.after, isLogged, elim_some, isSome_some, if_true]
      exact tracked.snoc r

variable {blk : ℕ}

/-- A call does not free slabs that were allocated before. -/
theorem Effect.allocated (effect : Effect hashb s req result) (before : s.bitmap blk = true) :
    result.shard.bitmap blk = true := by
  cases effect with
  | silent _ _ bitmap _ => rwa [bitmap]
  | @put _ _ blk' _ free bitmap =>
    by_cases same : blk = blk'
    · rw [bitmap, same, update_self]
    · rwa [bitmap, update_of_ne same]
  | delete => exact before

include admitted reached in
/-- Nor do the calls of a run. -/
theorem allocated_run (before : (st.shards i).bitmap blk = true) :
    (final.shards i).bitmap blk = true := by
  induction ops generalizing st with
  | nil =>
    cases reached
    exact before
  | cons op rest ih =>
    obtain ⟨result, _, effect, later, onward, _⟩ := run_first admitted reached
    refine ih later onward ?_
    by_cases here : i = op.1
    · subst here
      rw [after_shards_self]
      exact effect.allocated before
    · rwa [after_shards_of_ne _ here]

/-- All shards are well formed. -/
def Store.WellFormed (hashb : K → ℕ) (st : Store K) : Prop :=
  ∀ i, ∃ contents cells, (st.shards i).WellFormed hashb contents cells

/-- A call that logs no put loses at most lookups. -/
theorem Effect.lookup {contents : ℕ → Multiset HashEntry} {cells : Place → List ℕ}
    (effect : Effect hashb s req result) (legal : req.Legal s)
    (wf : s.WellFormed hashb contents cells) :
    (∃ blk, s.bitmap blk = false ∧ result.shard.bitmap blk = true) ∨
      (∃ contents' cells', result.shard.WellFormed hashb contents' cells') ∧
        result.shard.bitmap = s.bitmap ∧ (∀ key cntrId, s.lookup hashb key cntrId = none →
          result.shard.lookup hashb key cntrId = none) ∧ ((result.logged = none ∧
            ∀ key cntrId, result.shard.lookup hashb key cntrId = s.lookup hashb key cntrId) ∨
          (s.lookup hashb req.key req.cntrId).isSome = true ∧
            result.shard.lookup hashb req.key req.cntrId = none) := by
  cases effect with
  | silent none handle bitmap keyAt =>
    have wf' : result.shard.WellFormed hashb contents cells := wf.next (handle ▸ wf.inv)
      (handle ▸ .refl _) (bitmap ▸ wf.keys.congr (fun _ => id) keyAt)
    have same : ∀ key cntrId, result.shard.lookup hashb key cntrId = s.lookup hashb key cntrId :=
      fun key cntrId => wf.lookup_eq wf' (by rw [handle]) keyAt
    exact .inr ⟨⟨contents, cells, wf'⟩, bitmap, fun key cntrId gone => (same key cntrId).trans gone,
      .inl ⟨none, same⟩⟩
  | @put _ _ blk _ free bitmap => exact .inl ⟨blk, free, by rw [bitmap, update_self]⟩
  | @delete h' he _ _ room get deleted =>
    rw [hashTableGet, if_neg legal.1] at get
    rcases wf.inv.findAt_spec (s.isKey hashb req.key req.cntrId)
        (hashck hashb req.key req.cntrId % s.handle.hashSize) with
      ⟨he', found, inChain, used, isKey, mem⟩ | ⟨nothing, _⟩
    · cases found.symm.trans get
      obtain ⟨cells', wf', sizes, _⟩ := hashEntryDelete_outcome wf room inChain used deleted
      have bucket : ∀ key cntrId, bucketOf hashb { s with handle := h' } key cntrId =
          s.bucketOf hashb key cntrId := fun _ _ => by simp [bucketOf, sizes.size]
      have fewer := Table.taken_le contents (s.bucketOf hashb req.key req.cntrId)
        (s.handle.entry he)
      refine .inr ⟨⟨_, cells', wf'⟩, rfl, fun key cntrId gone => ?_, .inr ⟨?_, ?_⟩⟩
      · refine eq_none_iff_forall_not_mem.mpr fun e found' => ?_
        by_cases valid : cntrId = 0
        · simp [Shard.lookup, hashTableGet, valid] at found'
        · obtain ⟨mem', isKey'⟩ := (wf'.lookup_iff valid).mp found'
          rw [bucket] at mem'
          cases gone.symm.trans
            ((wf.lookup_iff valid).mpr ⟨Multiset.mem_of_le (fewer _) mem', isKey'⟩)
      · rw [(wf.lookup_iff legal.1).mpr ⟨mem, isKey⟩]
        rfl
      · refine eq_none_iff_forall_not_mem.mpr fun e found' => ?_
        obtain ⟨mem', isKey'⟩ := (wf'.lookup_iff legal.1).mp found'
        rw [bucket] at mem'
        obtain ⟨cntr, _, onFlash⟩ := isKey_iff.mp isKey
        obtain ⟨cntr', _, onFlash'⟩ := isKey_iff.mp isKey'
        have same : e = s.handle.entry he := wf.keys.unique (Multiset.mem_of_le (fewer _) mem') mem
          (cntr'.trans cntr.symm) (onFlash'.trans onFlash.symm)
        exact wf.notMem_taken (same ▸ mem')
    · cases nothing.symm.trans get

omit [DecidableEq K] in
/-- The other shards stay as they are. -/
theorem Store.WellFormed.after (wf : st.WellFormed hashb)
    (here : ∃ contents cells, result.shard.WellFormed hashb contents cells) :
    (st.after i result).WellFormed hashb := by
  intro j
  by_cases same : j = i
  · subst same
    rw [after_shards_self]
    exact here
  · rw [after_shards_of_ne st same]
    exact wf j

/-- A slab is allocated that was free before. -/
def Allocates (st final : Store K) : Prop :=
  ∃ i blk, (st.shards i).bitmap blk = false ∧ (final.shards i).bitmap blk = true

theorem allocates_of_first
    (admitted : Machine.Admitted (Store.step hashb) LegalCall (st.after i result) ops)
    (reached : run (Store.step hashb) (st.after i result) ops = some final)
    (free : (st.shards i).bitmap blk = false) (allocated : result.shard.bitmap blk = true) :
    Allocates st final :=
  ⟨i, blk, free, allocated_run admitted reached (by rwa [after_shards_self])⟩

omit [DecidableEq K] in
/-- Slabs that a call leaves alone may be compared with those before it. -/
theorem Allocates.before (bitmap : result.shard.bitmap = (st.shards i).bitmap)
    (allocates : Allocates (st.after i result) final) : Allocates st final := by
  obtain ⟨j, blk, free, allocated⟩ := allocates
  refine ⟨j, blk, ?_, allocated⟩
  by_cases same : j = i
  · subst same
    rwa [after_shards_self, bitmap] at free
  · rwa [after_shards_of_ne st same] at free

include admitted reached

/-- A run allocates a slab, or what is not found before it is not found after it. -/
theorem allocates_or_lookup_none (wf : st.WellFormed hashb) :
    Allocates st final ∨ ∀ i key cntrId, (st.shards i).lookup hashb key cntrId = none →
      (final.shards i).lookup hashb key cntrId = none := by
  induction ops generalizing st with
  | nil =>
    cases reached
    exact .inr fun _ _ _ => id
  | cons op rest ih =>
    obtain ⟨result, _, effect, later, onward, _⟩ := run_first admitted reached
    obtain ⟨contents, cells, here⟩ := wf op.1
    rcases effect.lookup admitted.1 here with
      ⟨blk, free, allocated⟩ | ⟨wf', bitmap, gone, _⟩
    · exact .inl (allocates_of_first later onward free allocated)
    · rcases ih later onward (wf.after wf') with allocates | vanish
      · exact .inl (allocates.before bitmap)
      · refine .inr fun i key cntrId none => vanish i key cntrId ?_
        by_cases same : i = op.1
        · subst same
          rw [after_shards_self]
          exact gone key cntrId none
        · rwa [after_shards_of_ne st same]

/-- A run that logs a record leaves a slab allocated or an object lost. -/
theorem trace_of_logged (wf : st.WellFormed hashb) (logged : loggedOn hashb st ops ≠ []) :
    Allocates st final ∨ ∃ i key cntrId, ((st.shards i).lookup hashb key cntrId).isSome = true ∧
      (final.shards i).lookup hashb key cntrId = none := by
  induction ops generalizing st with
  | nil => exact (logged rfl).elim
  | cons op rest ih =>
    obtain ⟨result, _, effect, later, onward, trace⟩ := run_first admitted reached
    obtain ⟨contents, cells, here⟩ := wf op.1
    rcases effect.lookup admitted.1 here with
      ⟨blk, free, allocated⟩ | ⟨wf', bitmap, _, ⟨silent, same⟩ | ⟨found, gone⟩⟩
    · exact .inl (allocates_of_first later onward free allocated)
    · rw [trace, silent] at logged
      rcases ih later onward (wf.after wf') logged with allocates | ⟨i, key, cntrId, found, gone⟩
      · exact .inl (allocates.before bitmap)
      · refine .inr ⟨i, key, cntrId, ?_, gone⟩
        by_cases sameShard : i = op.1
        · subst sameShard
          rwa [after_shards_self, same] at found
        · rwa [after_shards_of_ne st sameShard] at found
    · rcases allocates_or_lookup_none later onward (wf.after wf') with allocates | vanish
      · exact .inl (allocates.before bitmap)
      · exact .inr ⟨op.1, op.2.key, op.2.cntrId, found,
          vanish _ _ _ (by rwa [after_shards_self])⟩

omit admitted reached

/-- The shards are as they were: every key maps as before, and no slab is left allocated. -/
def NoTrace (hashb : K → ℕ) (st final : Store K) : Prop :=
  ∀ i, (∀ key cntrId, (final.shards i).lookup hashb key cntrId =
      (st.shards i).lookup hashb key cntrId) ∧
    ∀ blk, (final.shards i).bitmap blk = true → (st.shards i).bitmap blk = true

/-- A commit that fails leaves no trace only where no commit fails: with records of one shard, and
not more than the limit of them. -/
theorem failed_commit_noTrace (slots left : ℕ) (wf : st.WellFormed hashb) (noTrx : st.trx = {})
    (admitted : Machine.Admitted (Store.step hashb) LegalCall st ops)
    (reached : run (Store.step hashb) st ops = some final) :
    ((trxCommitInternal slots left final.trx).1 ≠ .okay → NoTrace hashb st final) ↔
      WithinLimits (loggedOn hashb st ops) := by
  have tracked : Tracked final.trx (loggedOn hashb st ops) := by
    have start : Tracked st.trx [] :=
      noTrx ▸ ⟨rfl, ⟨fun _ => ⟨Nat.zero_le _, nofun⟩, fun _ => rfl⟩, fun _ => rfl⟩
    exact start.run admitted reached
  have status : (trxCommitInternal slots left final.trx).1 = final.trx.status := by
    unfold trxCommitInternal
    split_ifs <;> rfl
  rw [status]
  constructor
  · intro noTrace
    by_contra outside
    have failed : final.trx.status ≠ .okay := fun okay => outside (tracked.okay.mp okay)
    have some : loggedOn hashb st ops ≠ [] := by
      intro none
      rw [none] at outside
      exact outside ⟨Nat.zero_le _, nofun⟩
    rcases trace_of_logged admitted reached wf some with
      ⟨i, blk, free, allocated⟩ | ⟨i, key, cntrId, found, gone⟩
    · cases free.symm.trans ((noTrace failed i).2 blk allocated)
    · rw [← (noTrace failed i).1 key cntrId, gone] at found
      cases found
  · intro within failed
    exact (failed (tracked.okay.mpr within)).elim

/-- The calls of a transaction on two shards. -/
abbrev twoShards : List (ℕ × Request ℕ) := [(0, firstPut), (1, firstPut)]

theorem run_twoShards :
    Machine.Admitted (Store.step fun _ => 0) LegalCall (emptyStore smallShard) twoShards ∧
      run (Store.step fun _ => 0) (emptyStore smallShard) twoShards =
        some (((emptyStore smallShard).after 0 smallPut).after 1 smallPut) := by
  have first : (emptyStore smallShard).step (fun _ => 0) (0, firstPut) =
      some ((emptyStore smallShard).after 0 smallPut) := congrArg (Option.map _) slabSet_smallPut
  have second : ((emptyStore smallShard).after 0 smallPut).step (fun _ => 0) (1, firstPut) =
      some (((emptyStore smallShard).after 0 smallPut).after 1 smallPut) := by
    exact congrArg (Option.map _) slabSet_smallPut
  refine ⟨⟨firstPut_legal (by decide) rfl, fun next taken => ?_⟩, ?_⟩
  · cases first.symm.trans taken
    refine ⟨?_, fun _ _ => trivial⟩
    change firstPut.Legal (((emptyStore smallShard).after 0 smallPut).shards 1)
    exact firstPut_legal (by decide) rfl
  · rw [run_cons, first, bind_some, run_cons, second]
    rfl

theorem failed_commit_noTrace_twoShards :
    ((trxCommitInternal 256 1000
        (((emptyStore smallShard).after 0 smallPut).after 1 smallPut).trx).1 ≠ .okay →
      NoTrace (fun _ => 0) (emptyStore smallShard)
        (((emptyStore smallShard).after 0 smallPut).after 1 smallPut)) ↔
      WithinLimits (loggedOn (fun _ => 0) (emptyStore smallShard) twoShards) := by
  obtain ⟨_, _, size⟩ := sizes_smallShard
  exact failed_commit_noTrace 256 1000
    (fun _ => ⟨_, _, wellFormed_init _ (by rw [size]; decide) (by rw [size]; decide) (by decide)⟩) rfl
    run_twoShards.1 run_twoShards.2

/-- A transaction on two shards fails, and its objects and slabs stay. -/
theorem failed_commit_leaves_trace :
    ∃ final, Machine.Admitted (Store.step fun _ => 0) LegalCall (emptyStore smallShard) twoShards ∧
      run (Store.step fun _ => 0) (emptyStore smallShard) twoShards = some final ∧
      trxCommitInternal 256 1000 final.trx = (.badShard, []) ∧
      ((emptyStore smallShard).shards 0).bitmap 0 = false ∧ (final.shards 0).bitmap 0 = true ∧
      ((emptyStore smallShard).shards 0).lookup (fun _ => 0) 0 1 = none ∧
      (final.shards 0).lookup (fun _ => 0) 0 1 = some (firstEntry 16) := by
  obtain ⟨_, _, size⟩ := sizes_smallShard
  have shard : (((emptyStore smallShard).after 0 smallPut).after 1 smallPut).shards 0 =
      smallPut.shard := by
    rw [after_shards_of_ne _ Nat.zero_ne_one, after_shards_self]
  refine ⟨_, run_twoShards.1, run_twoShards.2, rfl, rfl, ?_, rfl, ?_⟩
  · rw [shard]
    rfl
  · have found : smallPut.shard.handle.findAt (smallPut.shard.isKey (fun _ => 0) 0 1) 16 =
        some ⟨0, 0⟩ := findAt_oneEntry rfl rfl (by decide)
    have index : hashck (fun _ : ℕ => 0) 0 1 % smallPut.shard.handle.hashSize = 16 := by
      change 16 % (hashTableInit smallShard).hashSize = 16
      rw [size]
    rw [shard, Shard.lookup, hashTableGet, if_neg one_ne_zero, index, found]
    rfl

end Zetascale.Flash
