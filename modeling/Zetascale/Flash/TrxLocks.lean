import Zetascale.Flash.Trx

/-!
# The locks of the transaction table

The calls of `mcd_rec.c` that look transactions up in `trxtable`, with each
acquisition and release of a bucket lock as a step of its own. A thread knows its
transaction by the id in `trxid` only; another thread may conclude it at any time.
What a call does with a transaction that it took out of the table needs no bucket
lock and is left out.
-/

namespace Zetascale.Flash.TrxLocks

open Function Option Machine

variable {ι : Type} [DecidableEq ι]

/-- `trxindex` -/
def trxindex (id : ℕ) : ℕ := id % 256

/-- The calls. -/
inductive Call
  | start
  | commit
  | rollback
  | trxId
  | attach (id : ℕ)
  | detach
  | commitId (id : ℕ)
  /-- `trx_in_progress` -/
  | capture (shard : ℕ) (r : TrxRec)

/-- What a thread does under a bucket lock. -/
inductive Section
  /-- `mcd_trx_start`: is the thread's transaction still there? -/
  | startCheck
  /-- `mcd_trx_start`: the new transaction is added. -/
  | add
  | commit
  | rollback
  | trxId
  /-- `mcd_trx_attach`: is the thread's own transaction still there? -/
  | attachCheck (id : ℕ)
  | attach (id : ℕ)
  | commitId (id : ℕ)
  | capture (shard : ℕ) (r : TrxRec)

/-- Where a thread is. -/
inductive Place
  | out
  /-- before `mcd_trx_alloc` -/
  | alloc
  | locking (sec : Section)
  | locked (sec : Section)

/-- The table, the locks with the threads that hold them, the id and the place of
each thread, and the releases of locks that the thread did not hold. -/
structure Table (ι : Type) where
  next_trx_id : ℕ := 0
  trxtable : ℕ → List (ℕ × TrxState) := fun _ => []
  lock : ℕ → Option ι := fun _ => none
  trxid : ι → ℕ := fun _ => 0
  place : ι → Place := fun _ => .out
  strayed : List (ι × ℕ) := []

/-- The id by which a section is locked. -/
def Section.key (trxid : ℕ) : Section → ℕ
  | .attach id | .commitId id => id
  | _ => trxid

namespace Table

/-- `trx_find` -/
def trxFind (s : Table ι) (id : ℕ) : Option TrxState :=
  if id = 0 then none
  else ((s.trxtable (trxindex id)).find? fun t => t.1 = id).map Prod.snd

/-- `trx_add` -/
def trxAdd (s : Table ι) (id : ℕ) : ℕ → List (ℕ × TrxState) :=
  update s.trxtable (trxindex id) ((id, {}) :: s.trxtable (trxindex id))

/-- `trx_del` -/
def trxDel (s : Table ι) (id : ℕ) : ℕ → List (ℕ × TrxState) :=
  update s.trxtable (trxindex id) ((s.trxtable (trxindex id)).eraseP fun t => t.1 = id)

/-- Whether `trx_del` finds it. -/
def has (s : Table ι) (id : ℕ) : Bool := (s.trxtable (trxindex id)).any fun t => t.1 = id

/-- What is done with a transaction of the table. -/
def change (s : Table ι) (id : ℕ) (f : TrxState → TrxState) : ℕ → List (ℕ × TrxState) :=
  update s.trxtable (trxindex id)
    ((s.trxtable (trxindex id)).map fun t => if t.1 = id then (t.1, f t.2) else t)

/-- The end of a section: the table, the thread's id, the id whose lock is released, and the place
after it. -/
structure Leave where
  trxtable : ℕ → List (ℕ × TrxState)
  trxid : ℕ
  unlock : ℕ
  place : Place := .out

/-- What a thread does in a section, up to `trx_unlock`. -/
def leave (s : Table ι) (trxid : ℕ) : Section → Leave
  | .startCheck => ⟨s.trxtable, trxid, trxid, if (s.trxFind trxid).isSome then .out else .alloc⟩
  | .add => ⟨s.trxAdd trxid, trxid, trxid, .out⟩
  | .commit | .rollback => ⟨s.trxDel trxid, if s.has trxid then 0 else trxid, trxid, .out⟩
  | .trxId =>
    let trxid' := if (s.trxFind trxid).isSome then trxid else 0
    ⟨s.trxtable, trxid', trxid', .out⟩
  | .attachCheck id =>
    ⟨s.trxtable, trxid, trxid, if (s.trxFind trxid).isSome then .out else .locking (.attach id)⟩
  | .attach id => ⟨s.trxtable, if (s.trxFind id).isSome then id else trxid, id, .out⟩
  | .commitId id => ⟨s.trxDel id, trxid, id, .out⟩
  | .capture shard r =>
    if (s.trxFind trxid).isSome then
      ⟨s.change trxid fun t => trxInProgress t shard r, trxid, trxid, .out⟩
    else ⟨s.trxtable, 0, trxid, .out⟩

/-- The first place of a call. -/
def enter (trxid : ℕ) : Call → Place
  | .start => if trxid = 0 then .alloc else .locking .startCheck
  | .commit => .locking .commit
  | .rollback => .locking .rollback
  | .trxId => if trxid = 0 then .out else .locking .trxId
  | .attach id => if trxid = 0 then .locking (.attach id) else .locking (.attachCheck id)
  | .detach => .out
  | .commitId id => .locking (.commitId id)
  | .capture shard r => if trxid = 0 then .out else .locking (.capture shard r)

/-- A thread calls, allocates a transaction (or has no memory for it), acquires a lock or releases
it. -/
inductive Action (ι : Type)
  | call (thread : ι) (c : Call)
  | alloc (thread : ι) (succeeds : Bool)
  | acquire (thread : ι)
  | release (thread : ι)

/-- A step of a thread, if it can be taken. -/
def step (s : Table ι) : Action ι → Option (Table ι)
  | .call thread c =>
    match s.place thread with
    | .out => some { s with
        trxid := update s.trxid thread (match c with | .detach => 0 | _ => s.trxid thread)
        place := update s.place thread (enter (s.trxid thread) c) }
    | _ => none
  | .alloc thread succeeds =>
    match s.place thread, succeeds with
    | .alloc, true =>
      let id := (s.next_trx_id + 1) % 2 ^ 64
      some { s with
        next_trx_id := id
        trxid := update s.trxid thread id
        place := update s.place thread (.locking .add) }
    | .alloc, false => some { s with place := update s.place thread .out }
    | _, _ => none
  | .acquire thread =>
    match s.place thread with
    | .locking sec =>
      let bucket := trxindex (sec.key (s.trxid thread))
      if s.lock bucket = none then
        some { s with
          lock := update s.lock bucket (some thread)
          place := update s.place thread (.locked sec) }
      else none
    | _ => none
  | .release thread =>
    match s.place thread with
    | .locked sec =>
      let left := s.leave (s.trxid thread) sec
      some { s with
        trxtable := left.trxtable
        trxid := update s.trxid thread left.trxid
        lock := update s.lock (trxindex left.unlock) none
        place := update s.place thread left.place
        strayed :=
          if s.lock (trxindex left.unlock) = some thread then s.strayed
          else s.strayed ++ [(thread, left.unlock)] }
    | _ => none

/-- A thread between calls holds no lock, and no thread released a lock of another. -/
structure Right (s : Table ι) : Prop where
  outside : ∀ thread bucket, s.place thread = .out → s.lock bucket ≠ some thread
  strayed : s.strayed = []

/-- `mcd_trx_id` finds the thread's transaction, or its id is in the bucket of 0. -/
def FindsOwn (s : Table ι) : Action ι → Prop
  | .release thread => s.place thread = .locked .trxId →
      (s.trxFind (s.trxid thread)).isSome ∨ trxindex (s.trxid thread) = trxindex 0
  | _ => True

/-- A lock is held by the thread that is in a section under it. -/
structure Inv (s : Table ι) : Prop where
  held : ∀ bucket thread, s.lock bucket = some thread ↔
    ∃ sec, s.place thread = .locked sec ∧ trxindex (sec.key (s.trxid thread)) = bucket
  strayed : s.strayed = []

variable {s : Table ι} {thread : ι}

omit [DecidableEq ι] in
/-- The invariant says that locks are balanced. -/
theorem Inv.right (inv : Inv s) : s.Right := by
  refine ⟨fun thread bucket isOut holds => ?_, inv.strayed⟩
  obtain ⟨sec, isLocked, -⟩ := (inv.held bucket thread).mp holds
  cases isOut.symm.trans isLocked

/-- A thread that holds no lock, before and after, may change its id and its place. -/
theorem Inv.move (inv : Inv s) (before : ∀ sec, s.place thread ≠ .locked sec) {next : Table ι}
    {trxid : ℕ} {place : Place} (after : ∀ sec, place ≠ .locked sec) (lock : next.lock = s.lock)
    (ids : next.trxid = update s.trxid thread trxid)
    (places : next.place = update s.place thread place)
    (strayed : next.strayed = s.strayed) : Inv next := by
  refine ⟨fun bucket other => ?_, strayed.trans inv.strayed⟩
  rw [lock, inv.held, ids, places]
  by_cases same : other = thread
  · subst same
    rw [update_self, update_self]
    exact ⟨fun ⟨sec, here, _⟩ => absurd here (before sec), fun ⟨sec, here, _⟩ => absurd here (after sec)⟩
  · rw [update_of_ne same, update_of_ne same]

theorem enter_not_locked (trxid : ℕ) (c : Call) (sec : Section) : enter trxid c ≠ .locked sec := by
  cases c <;> unfold enter <;> split_ifs <;> exact Place.noConfusion

omit [DecidableEq ι] in
theorem leave_not_locked (s : Table ι) (trxid : ℕ) (sec sec' : Section) :
    (s.leave trxid sec).place ≠ .locked sec' := by
  cases sec <;> unfold leave <;> (try split_ifs) <;> exact Place.noConfusion

omit [DecidableEq ι] in
/-- A section releases the lock it is under, unless `mcd_trx_id` does not find the transaction. -/
theorem leave_unlock (s : Table ι) (trxid : ℕ) (sec : Section) :
    trxindex (s.leave trxid sec).unlock = trxindex (sec.key trxid) ↔
      (sec = .trxId → (s.trxFind trxid).isSome ∨ trxindex trxid = trxindex 0) := by
  cases sec with
  | trxId =>
    unfold leave
    cases found : (s.trxFind trxid).isSome with
    | true => exact iff_of_true rfl fun _ => .inl rfl
    | false => simpa [Section.key] using eq_comm
  | capture shard r =>
    unfold leave
    split_ifs <;> exact iff_of_true rfl nofun
  | _ => exact iff_of_true rfl nofun

/-- A thread takes a lock. -/
theorem Inv.acquire (inv : Inv s) {sec : Section} (here : s.place thread = .locking sec)
    (free : s.lock (trxindex (sec.key (s.trxid thread))) = none) : Inv { s with
      lock := update s.lock (trxindex (sec.key (s.trxid thread))) (some thread)
      place := update s.place thread (.locked sec) } := by
  refine ⟨fun bucket other => ?_, inv.strayed⟩
  have held := inv.held bucket other
  by_cases same : other = thread
  · subst same
    simp only [update_self, Place.locked.injEq, exists_eq_left']
    by_cases isBucket : bucket = trxindex (sec.key (s.trxid other))
    · rw [isBucket, update_self]
      exact iff_of_true rfl rfl
    · rw [update_of_ne isBucket, held, here]
      exact iff_of_false (fun ⟨_, never, _⟩ => nomatch never) (Ne.symm isBucket)
  · simp only [update_of_ne same]
    rw [← held]
    by_cases isBucket : bucket = trxindex (sec.key (s.trxid thread))
    · rw [isBucket, update_self, free]
      exact iff_of_false (fun eq => same (some.inj eq).symm) nofun
    · rw [update_of_ne isBucket]

/-- A thread lets its lock go. -/
theorem Inv.release (inv : Inv s) {sec : Section} (here : s.place thread = .locked sec)
    {left : Leave} (own : trxindex left.unlock = trxindex (sec.key (s.trxid thread)))
    (outside : ∀ sec', left.place ≠ .locked sec') : Inv { s with
      trxtable := left.trxtable
      trxid := update s.trxid thread left.trxid
      lock := update s.lock (trxindex left.unlock) none
      place := update s.place thread left.place
      strayed := if s.lock (trxindex left.unlock) = some thread then s.strayed
        else s.strayed ++ [(thread, left.unlock)] } := by
  have holds : s.lock (trxindex left.unlock) = some thread := (inv.held _ _).mpr ⟨sec, here, own.symm⟩
  refine ⟨fun bucket other => ?_, (if_pos holds).trans inv.strayed⟩
  have held := inv.held bucket other
  by_cases same : other = thread
  · subst same
    simp only [update_self]
    refine iff_of_false (fun still => ?_) (fun ⟨sec', isLocked, _⟩ => outside sec' isLocked)
    by_cases isBucket : bucket = trxindex left.unlock
    · rw [isBucket, update_self] at still
      cases still
    · rw [update_of_ne isBucket, held, here] at still
      obtain ⟨_, ⟨⟩, isKey⟩ := still
      exact isBucket (isKey.symm.trans own.symm)
  · simp only [update_of_ne same]
    rw [← held]
    by_cases isBucket : bucket = trxindex left.unlock
    · rw [isBucket, update_self, holds]
      exact iff_of_false nofun (fun eq => same (some.inj eq).symm)
    · rw [update_of_ne isBucket]

/-- A step keeps the invariant if `mcd_trx_id` finds the thread's transaction; if it does not, it
releases a lock that the thread does not hold. -/
theorem Inv.step (inv : Inv s) {action : Action ι} {next : Table ι}
    (taken : s.step action = some next) :
    (s.FindsOwn action → Inv next) ∧ (next.Right → s.FindsOwn action) := by
  cases action with
  | call thread c =>
    refine ⟨fun _ => ?_, fun _ => trivial⟩
    unfold Table.step at taken
    cases here : s.place thread with
    | out =>
      simp only [here, some.injEq] at taken
      subst taken
      refine inv.move (fun sec eq => ?_) (enter_not_locked _ c) rfl rfl rfl rfl
      cases here.symm.trans eq
    | _ => simp [here] at taken
  | alloc thread succeeds =>
    refine ⟨fun _ => ?_, fun _ => trivial⟩
    unfold Table.step at taken
    cases here : s.place thread with
    | alloc =>
      have before : ∀ sec, s.place thread ≠ .locked sec := fun sec eq => by simp [here] at eq
      cases succeeds with
      | true =>
        simp only [here, some.injEq] at taken
        subst taken
        exact inv.move before (fun _ => Place.noConfusion) rfl rfl rfl rfl
      | false =>
        simp only [here, some.injEq] at taken
        subst taken
        exact inv.move before (fun _ => Place.noConfusion) rfl (update_eq_self _ _).symm rfl rfl
    | _ => simp [here] at taken
  | acquire thread =>
    refine ⟨fun _ => ?_, fun _ => trivial⟩
    unfold Table.step at taken
    cases here : s.place thread with
    | locking sec =>
      simp only [here, ite_none_right_eq_some, some.injEq] at taken
      obtain ⟨free, rfl⟩ := taken
      exact inv.acquire here free
    | _ => simp [here] at taken
  | release thread =>
    unfold Table.step at taken
    cases here : s.place thread with
    | locked sec =>
      simp only [here, some.injEq] at taken
      subst taken
      have condition : s.FindsOwn (.release thread) ↔ trxindex (s.leave (s.trxid thread) sec).unlock =
          trxindex (sec.key (s.trxid thread)) := by
        rw [leave_unlock, FindsOwn, here, Place.locked.injEq]
      rw [condition]
      refine ⟨fun own => inv.release here own (leave_not_locked s _ sec), fun right => ?_⟩
      by_contra other
      -- the lock released is not the one that the thread holds
      have stranger : s.lock (trxindex (s.leave (s.trxid thread) sec).unlock) ≠ some thread := by
        rw [Ne, inv.held, here]
        rintro ⟨_, ⟨⟩, isKey⟩
        exact other isKey.symm
      have strayed := right.strayed
      rw [if_neg stranger] at strayed
      exact List.append_ne_nil_of_right_ne_nil _ (List.cons_ne_nil _ _) strayed
    | _ => simp [here] at taken

omit [DecidableEq ι] in
theorem inv_init : Inv ({} : Table ι) :=
  ⟨fun _ _ => iff_of_false nofun (fun ⟨_, never, _⟩ => nomatch never), rfl⟩

/-- All calls release the locks they acquire, in all interleavings, just in case `mcd_trx_id` finds
the transaction of its thread each time. -/
theorem locks_balanced_iff (ι : Type) [DecidableEq ι] (actions : List (Action ι))
    (taken : Machine.Admitted step (fun s action => (s.step action).isSome) {} actions) :
    (∀ before, before <+: actions → ∃ s, run step {} before = some s ∧ s.Right) ↔
      Machine.Admitted step FindsOwn {} actions := by
  refine admitted_iff_good Inv.right (fun {s action} inv legal => ?_) inv_init taken
  obtain ⟨next, taken⟩ := isSome_iff_exists.mp legal
  exact ⟨next, taken, inv.step taken⟩

/-- Two threads share a transaction, and the first concludes it. -/
def shared : List (Action (Fin 2)) :=
  [.call 0 .start, .alloc 0 true, .acquire 0, .release 0, .call 1 (.attach 1), .acquire 1, .release 1,
    .call 0 .commit, .acquire 0, .release 0]

theorem locks_balanced_iff_shared :
    Machine.Admitted step (fun s action => (s.step action).isSome) {} shared ∧
      ((∀ before, before <+: shared → ∃ s, run step {} before = some s ∧ s.Right) ↔
        Machine.Admitted step FindsOwn {} shared) :=
  ⟨by decide, locks_balanced_iff _ _ (by decide)⟩

/-- When the second one asks for its id it keeps the lock of the transaction's bucket, and releases
the lock of bucket 0, which it does not hold. -/
theorem lock_kept :
    ∃ s, run step {} (shared ++ [.call 1 .trxId, .acquire 1, .release 1]) = some s ∧
      s.place 1 = .out ∧ s.lock 1 = some 1 ∧ s.strayed = [(1, 0)] :=
  ⟨_, rfl, rfl, rfl, rfl⟩

end Table

end Zetascale.Flash.TrxLocks
