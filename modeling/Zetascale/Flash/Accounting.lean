import Zetascale.Flash.Commit
import Zetascale.Flash.Rollback

/-!
# Rollback and space accounting

Puts and deletes count the space they use: blocks consumed, slabs that wait for
their deallocation, the container's objects and blocks. A rollback gives the
slabs of puts back, and leaves these counts alone.
-/

namespace Zetascale.Flash

open Function HashHandle List Option Machine Journal

universe u

variable {K : Type u} [DecidableEq K]

/-- The slab classes of a shard: the class for a number of blocks, the blocks of its slabs. -/
structure Classes where
  classTable : ℕ → ℕ
  slabBlksize : ℕ → ℕ

/-- `blk_to_use`; `lba_to_use` is the same. -/
def Classes.use (g : Classes) (blocks : ℕ) : ℕ := g.slabBlksize (g.classTable blocks)

/-- The counts of a shard, and those of its containers. -/
structure Accounts where
  blkConsumed : ℤ := 0
  deallocPending : ℕ → ℕ := fun _ => 0
  blkDeallocPending : ℕ := 0
  numObj : ℕ → ℤ := fun _ => 0
  /-- in blocks -/
  currentSize : ℕ → ℤ := fun _ => 0

namespace Accounts

variable (g : Classes)

/-- `inc_cntr_map_by_map` -/
def count (a : Accounts) (cntrId : ℕ) (objs blks : ℤ) : Accounts :=
  { a with
    numObj := update a.numObj cntrId (a.numObj cntrId + objs)
    currentSize := update a.currentSize cntrId (a.currentSize cntrId + blks) }

/-- `mcd_fth_osd_slab_dealloc` -/
def slabDealloc (a : Accounts) (cls : ℕ) (async : Bool) : Accounts :=
  if async then
    { a with
      deallocPending := update a.deallocPending cls (a.deallocPending cls - 1)
      blkDeallocPending := a.blkDeallocPending - g.slabBlksize cls }
  else a

/-- `mcd_fth_osd_remove_entry` -/
def removeEntry (a : Accounts) (blocks : ℕ) (delayed : Bool) : Accounts :=
  let cls := g.classTable blocks
  let a :=
    if delayed then
      { a with
        deallocPending := update a.deallocPending cls (a.deallocPending cls + 1)
        blkDeallocPending := a.blkDeallocPending + g.slabBlksize cls }
    else a.slabDealloc g cls false
  { a with blkConsumed := a.blkConsumed - blocks }

/-- What `mcd_fth_osd_slab_set` counts if it finds the entry `old` and returns `rc`. Blocks that it
reserves in the container it takes back itself. -/
def charge (a : Accounts) (req : Request K) (old : Option HashEntry) : FlashRc → Accounts
  | .eok =>
    let kept := old.elim a fun e =>
      (a.removeEntry g e.blocks true).count req.cntrId (-1) (-g.use e.blocks)
    req.payload.elim kept fun p =>
      { kept with blkConsumed := kept.blkConsumed + p.blocks }.count req.cntrId 1 (g.use p.blocks)
  | .enospc =>
    req.payload.elim a fun p =>
      -- the slab was allocated, the hash table is full
      if p.blkOffset.isSome then
        { a with blkConsumed := a.blkConsumed + p.blocks }.removeEntry g p.blocks false
      else a
  | _ => a

variable {g} (a : Accounts) {req : Request K} {old : Option HashEntry}

omit [DecidableEq K] in
/-- A refused call is not charged. -/
theorem charge_of_ne {rc : FlashRc} (refused : rc ≠ .eok) : a.charge g req old rc = a := by
  cases rc with
  | eok => exact (refused rfl).elim
  | enospc =>
    rw [charge]
    cases req.payload with
    | none => rfl
    | some p =>
      rw [elim_some]
      split_ifs
      · simp [removeEntry, slabDealloc]
      · rfl
  | enoent | eexist | einval => rfl

/-- Deallocations that are pending come first, then the blocks consumed. -/
def weight (a : Accounts) : (ℕ → ℕ) ×ₗ ℤ := toLex (a.deallocPending, a.blkConsumed)

omit [DecidableEq K] in
/-- A call that succeeds leaves its mark. -/
theorem weight_lt_charge (blocks : ∀ p ∈ req.payload, 0 < p.blocks)
    (found : req.payload = none → old.isSome = true) :
    a.weight < (a.charge g req old .eok).weight := by
  refine Prod.Lex.toLex_lt_toLex.mpr ?_
  cases old with
  | some e =>
    have more : a.deallocPending < update a.deallocPending (g.classTable e.blocks)
        (a.deallocPending (g.classTable e.blocks) + 1) :=
      lt_update_self_iff.mpr (Nat.lt_succ_self _)
    rw [charge]
    cases req.payload with
    | none => exact .inl more
    | some p => exact .inl more
  | none =>
    cases put : req.payload with
    | none => cases found put
    | some p =>
      have pos := blocks p put
      refine .inr ⟨?_, ?_⟩ <;> simp [charge, put, count]
      omega

end Accounts

variable (g : Classes) (hashb : K → ℕ) (i : ℕ)

/-- A put or delete on shard `i`, inside the transaction. -/
def bookedStep (state : Store K × Accounts) (req : Request K) : Option (Store K × Accounts) :=
  (slabSet hashb (state.1.shards i) req).map fun result =>
    (state.1.after i result, state.2.charge g req
      ((state.1.shards i).lookup hashb req.key req.cntrId) result.rc)

/-- One record undone. -/
def bookedUndo (isset : ℕ → Bool) (state : (Shard K × TrxStatus) × Accounts) (r : TrxRec) :
    Option ((Shard K × TrxStatus) × Accounts) :=
  (undoRec isset state.1 r).map fun undone => (undone,
    if r.lr.blocks ≠ 0 then state.2.slabDealloc g (g.classTable r.lr.blocks) false else state.2)

/-- `mcd_trx_rollback_internal` -/
def bookedRollback (answers : ℕ → ℕ → Bool) (state : Store K × Accounts) :
    Option ((Shard K × TrxStatus) × Accounts) :=
  undoAll (fun n => bookedUndo g (answers n)) state.1.trx.trtab
    ((state.1.shards i, state.1.trx.status), state.2)

/-- Every call returns an error in the state in which it is made. -/
abbrev AllRefused : Store K × Accounts → List (Request K) → Prop :=
  Machine.Admitted (bookedStep g hashb i) fun state req =>
    ∀ result, slabSet hashb (state.1.shards i) req = some result → result.rc ≠ .eok

variable {g hashb i} {state final : Store K × Accounts} {reqs : List (Request K)}

omit [DecidableEq K] in
/-- A rollback does not count anything. -/
theorem bookedRollback_eq (answers : ℕ → ℕ → Bool) : bookedRollback g i answers state =
      (trxRollbackInternal answers (state.1.shards i) state.1.trx).map (·, state.2) := by
  rw [bookedRollback, trxRollbackInternal]
  generalize (state.1.shards i, state.1.trx.status) = start
  induction state.1.trx.trtab with
  | nil => rfl
  | cons r rest ih =>
    rw [undoAll, undoAll, ih]
    cases Journal.undoAll (fun n => undoRec (answers n)) rest start with
    | none => rfl
    | some later => simp [bookedUndo, Accounts.slabDealloc]

/-- A delete succeeds only on an object. -/
theorem slabSet_found {s : Shard K} {req : Request K} {result : SetResult K}
    (returned : slabSet hashb s req = some result) (ok : result.rc = .eok)
    (delete : req.payload = none) : (s.lookup hashb req.key req.cntrId).isSome = true := by
  rw [Shard.lookup, isSome_map]
  cases found : hashTableGet hashb s req.key req.cntrId with
  | some he => rfl
  | none =>
    simp only [slabSet, delete, found] at returned
    split_ifs at returned
    cases returned
    cases ok

/-- The calls of a transaction are all refused, or leave their mark. -/
theorem run_accounts (blocks : ∀ req ∈ reqs, ∀ p ∈ req.payload, 0 < p.blocks)
    (reached : Machine.run (bookedStep g hashb i) state reqs = some final) :
    (AllRefused g hashb i state reqs ∧ final.2 = state.2) ∨
      (¬AllRefused g hashb i state reqs ∧ state.2.weight < final.2.weight) := by
  induction reqs generalizing state with
  | nil =>
    cases reached
    exact .inl ⟨trivial, rfl⟩
  | cons req rest ih =>
    obtain ⟨next, taken, onward⟩ := run_cons_eq_some.mp reached
    obtain ⟨result, returned, rfl⟩ := map_eq_some_iff.mp taken
    have later := ih (fun req mem => blocks req (mem_cons_of_mem _ mem)) onward
    by_cases ok : result.rc = .eok
    · have more := state.2.weight_lt_charge (g := g) (blocks req mem_cons_self)
        (slabSet_found returned ok)
      rw [ok] at later
      refine .inr ⟨fun admitted => admitted.1 result returned ok, ?_⟩
      rcases later with ⟨_, same⟩ | ⟨_, less⟩
      · rwa [same]
      · exact more.trans less
    · rw [Accounts.charge_of_ne _ ok] at taken later
      rcases later with ⟨admitted, kept⟩ | ⟨not, less⟩
      · refine .inl ⟨⟨fun result' returned' => ?_, fun next' taken' => ?_⟩, kept⟩
        · cases returned.symm.trans returned'
          exact ok
        · cases taken.symm.trans taken'
          exact admitted
      · exact .inr ⟨fun admitted => not (admitted.2 _ taken), less⟩

/-- A rollback leaves the accounts as they were before the transaction just in case all calls of the
transaction were refused. -/
theorem rollback_accounts_iff (blocks : ∀ req ∈ reqs, ∀ p ∈ req.payload, 0 < p.blocks)
    (reached : Machine.run (bookedStep g hashb i) state reqs = some final)
    {answers : ℕ → ℕ → Bool} {undone : (Shard K × TrxStatus) × Accounts}
    (rolledBack : bookedRollback g i answers final = some undone) :
    undone.2 = state.2 ↔ AllRefused g hashb i state reqs := by
  rw [bookedRollback_eq, map_eq_some_iff] at rolledBack
  obtain ⟨_, _, rfl⟩ := rolledBack
  rcases run_accounts blocks reached with ⟨admitted, same⟩ | ⟨not, less⟩
  · exact iff_of_true same admitted
  · refine iff_of_false (fun same => ?_) not
    rw [show final.2 = state.2 from same] at less
    exact lt_irrefl _ less

/-- One class, of slabs with one block. -/
abbrev oneClass : Classes := ⟨fun _ => 0, fun _ => 1⟩

/-- After a transaction of one put, of an object with one block. -/
abbrev afterPut : Store ℕ × Accounts :=
  ((emptyStore smallShard).after 0 smallPut, Accounts.charge oneClass {} firstPut none .eok)

theorem run_firstPut :
    run (bookedStep oneClass (fun _ => 0) 0) (emptyStore smallShard, {}) [firstPut] =
      some afterPut :=
  congrArg (fun r => (Option.map _ r).bind some) slabSet_smallPut

theorem rollback_afterPut : ∃ s, bookedRollback oneClass 0 (fun _ _ => false) afterPut =
    some ((s, .okay), afterPut.2) := by
  obtain ⟨bktsize, locks, size⟩ := sizes_smallShard
  have small : (hashTableInit smallShard).hashSize ≤ 2 ^ 32 := by rw [size]; decide
  have wf : (Shard.init smallShard : Shard ℕ).WellFormed (fun _ => 0) _ _ :=
    wellFormed_init _ (by rw [size]; decide) small (by decide)
  obtain ⟨final, reached, rollback⟩ := wf.restorable (covers_init ⟨small, by rw [size, bktsize, locks]⟩)
    0 (emptyStore smallShard) rfl rfl [(0, firstPut)] (by decide)
    ⟨⟨rfl, firstPut_legal (by decide) rfl⟩, fun _ _ => trivial⟩
  have run : Machine.run (Store.step fun _ => 0) (emptyStore smallShard) [(0, firstPut)] = some afterPut.1 :=
    congrArg (fun r => (Option.map _ r).bind some) slabSet_smallPut
  cases run.symm.trans reached
  obtain ⟨s, rolledBack⟩ := (rollback fun _ _ => false).1
    (maxHashTableIdx_init_pos small (by rw [buckets, size]; decide))
  exact ⟨s, by rw [bookedRollback_eq, rolledBack, map_some]⟩

theorem rollback_accounts_firstPut :
    ∃ s, bookedRollback oneClass 0 (fun _ _ => false) afterPut = some ((s, .okay), afterPut.2) ∧
      (afterPut.2 = {} ↔ AllRefused oneClass (fun _ => 0) 0 (emptyStore smallShard, {}) [firstPut]) := by
  obtain ⟨s, rolledBack⟩ := rollback_afterPut
  refine ⟨s, rolledBack, rollback_accounts_iff (fun req mem p put => ?_) run_firstPut rolledBack⟩
  cases mem_singleton.mp mem
  cases put
  exact one_pos

/-- The put of one object is rolled back, and its block and the object are still counted. -/
theorem rollback_keeps_counts :
    run (bookedStep oneClass (fun _ => 0) 0) (emptyStore smallShard, {}) [firstPut] =
        some afterPut ∧
      ∃ s, bookedRollback oneClass 0 (fun _ _ => false) afterPut = some ((s, .okay), afterPut.2) ∧
        afterPut.2.blkConsumed = 1 ∧ afterPut.2.numObj 1 = 1 ∧ afterPut.2.currentSize 1 = 1 := by
  obtain ⟨s, rolledBack⟩ := rollback_afterPut
  exact ⟨run_firstPut, s, rolledBack, rfl, rfl, rfl⟩

end Zetascale.Flash
