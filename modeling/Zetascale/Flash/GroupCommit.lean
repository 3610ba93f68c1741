import Zetascale.Lib.Machine

/-!
# Group commit

`mlog_buf`, `mlog_ensure_space` and `mlog_sync` of `mcd_rec.c`, with `log_write` and the logging part
of `mcd_trx_commit_internal` around them, for any number of threads. A step of a thread is a stretch
of code that no other thread can get into: a section under `mutex` or `sync_mutex`, or one access
outside of them. `sync_fill_lock` is held from the first to the last record that a call appends.

`appended` and `lo` are kept for the statements only: the records in the order in which `mlog_buf`
took them, and how many there were before a call's first one.
-/

namespace Zetascale.Flash.Mlog

open Function List Bool Machine

/-- `SDF_durability_level_t` -/
inductive Durability where
  | no
  | relaxed
  | full
  deriving DecidableEq

/-- A record of the log, `none` for the filler before a transaction that would wrap around. -/
structure LogRec (P : Type) where
  obj : Option P
  dl : Durability

variable {P : Type}

def LogRec.isFull (r : LogRec P) : Bool :=
  r.dl == .full

/-- `z` of `mcd_trx_commit_internal` -/
def filler : LogRec P := ⟨none, .no⟩

/-- What a thread asks for: `log_write`, or `mcd_trx_commit_internal` with so many fillers. A
transaction that logs anything has a last record. -/
inductive Call (P : Type) where
  | write (r : LogRec P)
  | commit (fillers : ℕ) (first : List (LogRec P)) (last : LogRec P)

namespace Call

/-- The last record. -/
def last : Call P → LogRec P
  | write r => r
  | commit _ _ last => last

/-- The records before it. -/
def front : Call P → List (LogRec P)
  | write _ => []
  | commit fillers first _ => replicate fillers filler ++ first

def records (call : Call P) : List (LogRec P) :=
  call.front ++ [call.last]

/-- The `sync` that is asked of `log_sync_internal`. -/
def sync : Call P → Bool
  | write r => r.isFull
  | commit _ first last => first.any LogRec.isFull || last.isFull

end Call

/-- `MLOG_BUF_N_RECS` -/
def mlogBufNRecs : ℕ := 1024

/-- `MLOG_N_BUFS` -/
def mlogNBufs : ℕ := 2

/-- Where `mlog_sync` returns to: `mlog_ensure_space`, with the records left to append, or the end of
the call. -/
inductive Return (P : Type) where
  | ensureSpace (call : Call P) (lo : ℕ) (left : List (LogRec P))
  | caller (call : Call P) (lo : ℕ)

/-- Where a thread is. -/
inductive Pc (P : Type) where
  | idle
  /-- in `mlog_buf`, before `mutex` is taken -/
  | append (call : Call P) (lo : ℕ) (left : List (LogRec P))
  /-- in `mlog_ensure_space`, before `mlog_sync` is called with `log->lsn` -/
  | full (call : Call P) (lo : ℕ) (left : List (LogRec P))
  /-- before `sync_fill_lock` is released -/
  | unlock (call : Call P) (lo lsn : ℕ)
  /-- in `mlog_sync`, at the first test of `synced_lsn` -/
  | check (lsn : ℕ) (sync : Bool) (k : Return P)
  /-- before the section under `sync_mutex` -/
  | wait (lsn : ℕ) (sync : Bool) (k : Return P)
  /-- `in_sync` is set, the buffer is still the current one -/
  | swap (sync : Bool) (k : Return P)
  /-- at record `i` of the loop -/
  | flush (buf syncedLsn i : ℕ) (sync : Bool) (k : Return P)
  /-- after the loop -/
  | fsync (buf syncedLsn : ℕ) (sync : Bool) (k : Return P)
  /-- before the last section under `sync_mutex` -/
  | finish (buf syncedLsn : ℕ) (k : Return P)
  /-- returned -/
  | done (call : Call P) (lo : ℕ)

/-- `mlog_t`, the flush log and the threads. -/
structure State (P : Type) where
  bufs : ℕ → List (LogRec P) := fun _ => []
  curBuf : ℕ := 0
  lsn : ℕ := 0
  syncedLsn : ℕ := 0
  inSync : Bool := false
  /-- the owner of `sync_fill_lock` -/
  fillLock : Option ℕ := none
  /-- the records in the order in which `flog_persist` wrote them -/
  written : List (LogRec P) := []
  /-- how many of them were written before the last `flog_fdatasync` -/
  durable : ℕ := 0
  appended : List (LogRec P) := []
  threads : ℕ → Pc P := fun _ => .idle

namespace State

def goto (s : State P) (t : ℕ) (pc : Pc P) : State P :=
  { s with threads := update s.threads t pc }

def setBuf (s : State P) (buf : ℕ) (records : List (LogRec P)) : State P :=
  { s with bufs := update s.bufs buf records }

/-- The end of `mlog_buf`: the record goes into the current buffer. -/
def put (s : State P) (r : LogRec P) : State P :=
  { s.setBuf s.curBuf (s.bufs s.curBuf ++ [r]) with
    lsn := s.lsn + 1
    appended := s.appended ++ [r] }

end State

/-- The return from `mlog_sync`. -/
def Return.pc : Return P → Pc P
  | ensureSpace call lo left => .append call lo left
  | caller call lo => .done call lo

/-- The next step of a thread, unless it has to wait. -/
def advance (s : State P) (t : ℕ) : Option (State P) :=
  match s.threads t with
  | .idle => none
  | .append _ _ [] => none
  | .append call lo (r :: left) =>
    if mlogBufNRecs ≤ (s.bufs s.curBuf).length then some (s.goto t (.full call lo (r :: left)))
    else
      match left with
      | [] => some ((s.put r).goto t (.unlock call lo (s.lsn + 1)))
      | _ :: _ => some ((s.put r).goto t (.append call lo left))
  | .full call lo left => some (s.goto t (.check s.lsn false (.ensureSpace call lo left)))
  | .unlock call lo lsn =>
    some ({ s with fillLock := none }.goto t (.check lsn call.sync (.caller call lo)))
  | .check lsn sync k =>
    if lsn ≤ s.syncedLsn then some (s.goto t k.pc) else some (s.goto t (.wait lsn sync k))
  | .wait lsn sync k =>
    -- `pthread_cond_wait`, as long as there is another one in `mlog_sync`
    if s.inSync = true ∧ s.syncedLsn < lsn then none
    else if lsn ≤ s.syncedLsn then some (s.goto t k.pc)
    else some ({ s with inSync := true }.goto t (.swap sync k))
  | .swap sync k =>
    some ({ s with curBuf := (s.curBuf + 1) % mlogNBufs }.goto t (.flush s.curBuf s.lsn 0 sync k))
  | .flush buf syncedLsn i sync k =>
    match (s.bufs buf)[i]? with
    | some r =>
      some ({ s with written := s.written ++ [r] }.goto t
        (.flush buf syncedLsn (i + 1) (sync || r.isFull) k))
    | none => some (s.goto t (.fsync buf syncedLsn sync k))
  | .fsync buf syncedLsn sync k =>
    let s' := if sync then { s with durable := s.written.length } else s
    some (s'.goto t (.finish buf syncedLsn k))
  | .finish buf syncedLsn k =>
    some ({ s.setBuf buf [] with syncedLsn := syncedLsn, inSync := false }.goto t k.pc)
  | .done _ _ => none

/-- A thread that is in no call starts one, when `sync_fill_lock` is free, or goes on. -/
inductive Action (P : Type) where
  | start (t : ℕ) (call : Call P)
  | go (t : ℕ)

def Pc.isFree : Pc P → Bool
  | idle | done _ _ => true
  | _ => false

def step (s : State P) : Action P → Option (State P)
  | .start t call =>
    if s.fillLock = none ∧ (s.threads t).isFree = true then
      some ({ s with fillLock := some t }.goto t (.append call s.appended.length call.records))
    else none
  | .go t => advance s t

variable {s s' : State P} {t lo target : ℕ} {pc : Pc P} {call : Call P}

/-- The thread owns `sync_fill_lock`. -/
def Return.filling : Return P → Bool
  | ensureSpace _ _ _ => true
  | caller _ _ => false

def Pc.filling : Pc P → Bool
  | append _ _ _ | full _ _ _ | unlock _ _ _ => true
  | check _ _ k | wait _ _ k | swap _ k | flush _ _ _ _ k | fsync _ _ _ k | finish _ _ k => k.filling
  | idle | done _ _ => false

/-- The thread set `in_sync`. -/
def Pc.syncing : Pc P → Bool
  | swap _ _ | flush _ _ _ _ _ | fsync _ _ _ _ | finish _ _ _ => true
  | _ => false

/-- The records with full durability among the first `n` were followed by a sync. -/
def Covered (s : State P) (n : ℕ) : Prop :=
  ∀ i < n, ∀ r, s.appended[i]? = some r → r.isFull = true → i < s.durable

/-- Nothing is on its way to the flush log. -/
structure Quiet (s : State P) : Prop where
  synced : s.syncedLsn = s.written.length
  rest : s.appended = s.written ++ s.bufs s.curBuf
  other : s.bufs (1 - s.curBuf) = []

/-- How far the thread in `mlog_sync` has come. -/
def Section (s : State P) : Pc P → Prop
  | .swap _ _ => Quiet s
  | .flush buf syncedLsn i sync _ =>
    buf = 1 - s.curBuf ∧ i ≤ (s.bufs buf).length ∧ s.written.length = s.syncedLsn + i ∧
      syncedLsn = s.syncedLsn + (s.bufs buf).length ∧
      s.appended = s.written ++ (s.bufs buf).drop i ++ s.bufs s.curBuf ∧
      ∀ j < s.written.length, s.syncedLsn ≤ j → ∀ r, s.appended[j]? = some r →
        r.isFull = true → sync = true
  | .fsync buf syncedLsn sync _ =>
    buf = 1 - s.curBuf ∧ syncedLsn = s.written.length ∧ s.syncedLsn ≤ syncedLsn ∧
      s.appended = s.written ++ s.bufs s.curBuf ∧
      ∀ j < s.written.length, s.syncedLsn ≤ j → ∀ r, s.appended[j]? = some r →
        r.isFull = true → sync = true
  | .finish buf syncedLsn _ =>
    buf = 1 - s.curBuf ∧ syncedLsn = s.written.length ∧ s.syncedLsn ≤ syncedLsn ∧
      s.appended = s.written ++ s.bufs s.curBuf ∧ Covered s syncedLsn
  | _ => True

/-- The call's records are in the log, from `lo` on. -/
def Logged (s : State P) (call : Call P) (lo : ℕ) : Prop :=
  (s.appended.drop lo).take call.records.length = call.records

/-- The call's records but those left are the last ones of the log. -/
def Filling (s : State P) (call : Call P) (lo : ℕ) (left : List (LogRec P)) : Prop :=
  lo ≤ s.appended.length ∧ left ≠ [] ∧ s.appended.drop lo ++ left = call.records

def Return.Local (s : State P) (target : ℕ) : Return P → Prop
  | ensureSpace call lo left => Filling s call lo left
  | caller call lo => Logged s call lo ∧ lo + call.records.length ≤ target

/-- What a thread knows about its records. -/
def Local (s : State P) : Pc P → Prop
  | .idle => True
  | .append call lo left | .full call lo left => Filling s call lo left
  | .unlock call lo lsn => Logged s call lo ∧ lo + call.records.length ≤ lsn
  | .check lsn _ k | .wait lsn _ k => k.Local s lsn
  | .swap _ k => k.Local s s.appended.length
  | .flush _ syncedLsn _ _ k | .fsync _ syncedLsn _ k | .finish _ syncedLsn k => k.Local s syncedLsn
  | .done call lo => Logged s call lo ∧ lo + call.records.length ≤ s.syncedLsn

/-- What holds of the log between any two steps. -/
structure Shared (s : State P) : Prop where
  lsn : s.lsn = s.appended.length
  cur : s.curBuf < 2
  durable : s.durable ≤ s.written.length
  synced : s.syncedLsn ≤ s.written.length
  covered : Covered s s.syncedLsn
  inOrder : s.written <+: s.appended
  quiet : s.inSync = false → Quiet s

structure Inv (s : State P) : Prop where
  shared : Shared s
  inSync : ∀ t, (s.threads t).syncing = true → s.inSync = true
  one : ∀ t t', (s.threads t).syncing = true → (s.threads t').syncing = true → t = t'
  fills : ∀ t, (s.threads t).filling = true → s.fillLock = some t
  sections : ∀ t, Section s (s.threads t)
  locals : ∀ t, Local s (s.threads t)

theorem section_of_not_syncing (outside : pc.syncing = false) : Section s pc := by
  cases pc with
  | swap | flush | fsync | finish => exact Bool.noConfusion outside
  | idle | append | full | unlock | check | wait | done => trivial

theorem Call.records_pos (call : Call P) : 0 < call.records.length := by
  rw [Call.records, length_append]
  exact Nat.succ_pos _

theorem Logged.le (logged : Logged s call lo) : lo + call.records.length ≤ s.appended.length := by
  have length := congrArg length logged
  have recordsPos := call.records_pos
  rw [length_take, length_drop] at length
  omega

/-- Records stay where they are in the log. -/
theorem Logged.mono (logged : Logged s call lo)
    (grown : s.appended <+: s'.appended) : Logged s' call lo := by
  obtain ⟨more, grown⟩ := grown
  have upTo := logged.le
  unfold Logged at logged ⊢
  rw [← grown, drop_append_of_le_length (by omega),
    take_append_of_le_length (by rw [length_drop]; omega), logged]

/-- So does what a sync returns to. -/
theorem Return.Local.mono {k : Return P} {target' : ℕ} (holds : k.Local s target)
    (grown : s.appended <+: s'.appended) (upTo : target ≤ target')
    (own : k.filling = true → s'.appended = s.appended) : k.Local s' target' := by
  cases k with
  | ensureSpace call lo left =>
    have same := own rfl
    unfold Return.Local Filling at holds ⊢
    rwa [same]
  | caller call lo => exact ⟨holds.1.mono grown, Nat.le_trans holds.2 upTo⟩

/-- The log grows by other threads, and more of it is written. -/
theorem Local.mono (holds : Local s pc) (grown : s.appended <+: s'.appended)
    (synced : s.syncedLsn ≤ s'.syncedLsn) (own : pc.filling = true → s'.appended = s.appended) :
    Local s' pc := by
  cases pc with
  | idle => trivial
  | append | full =>
    have same := own rfl
    unfold Local Filling at holds ⊢
    rwa [same]
  | unlock call lo lsn => exact ⟨holds.1.mono grown, holds.2⟩
  | swap sync k => exact Return.Local.mono holds grown grown.length_le own
  | check | wait | flush | fsync | finish =>
    exact Return.Local.mono holds grown (Nat.le_refl _) own
  | done call lo => exact ⟨holds.1.mono grown, Nat.le_trans holds.2 synced⟩

/-- The lock and the threads are no part of the log. -/
theorem Quiet.relock (quiet : Quiet s) (lock : Option ℕ) (threads : ℕ → Pc P) :
    Quiet { s with fillLock := lock, threads := threads } :=
  { quiet with }

theorem Shared.relock (shared : Shared s) (lock : Option ℕ) (threads : ℕ → Pc P) :
    Shared { s with fillLock := lock, threads := threads } :=
  { shared with quiet := fun free => (shared.quiet free).relock lock threads }

theorem Section.relock (holds : Section s pc) (lock : Option ℕ) (threads : ℕ → Pc P) :
    Section { s with fillLock := lock, threads := threads } pc := by
  cases pc with
  | swap => exact Quiet.relock holds lock threads
  | _ => exact holds

/-- A thread moves on while the log changes as the other threads can bear. -/
theorem Inv.goto {s₁ : State P} (inv : Inv s) (threads : s₁.threads = s.threads)
    (shared : Shared s₁) (grown : s.appended <+: s₁.appended) (synced : s.syncedLsn ≤ s₁.syncedLsn)
    (others : ∀ t', t' ≠ t → ((s.threads t').filling = true →
        s₁.appended = s.appended ∧ s₁.fillLock = some t') ∧
      ((s.threads t').syncing = true → s₁.inSync = true ∧ pc.syncing = false) ∧
      Section s₁ (s.threads t')) (inSync : pc.syncing = true → s₁.inSync = true)
    (fills : pc.filling = true → s₁.fillLock = some t) (hereSection : Section s₁ pc)
    (hereLocal : Local s₁ pc) : Inv (s₁.goto t pc) := by
  have self : (s₁.goto t pc).threads t = pc := update_self _ _ _
  have other : ∀ t', t' ≠ t → (s₁.goto t pc).threads t' = s.threads t' := fun t' apart => by
    rw [State.goto, threads]
    exact update_of_ne apart _ _
  refine ⟨shared.relock _ _, fun t' => ?_, fun t' t'' => ?_, fun t' => ?_, fun t' => ?_, fun t' => ?_⟩
  · by_cases same : t' = t
    · rw [same, self]
      exact inSync
    · rw [other t' same]
      exact fun syncing => ((others t' same).2.1 syncing).1
  · by_cases same : t' = t <;> by_cases same' : t'' = t
    · exact fun _ _ => same.trans same'.symm
    · rw [same, self, other t'' same']
      exact fun here there => nomatch here.symm.trans ((others t'' same').2.1 there).2
    · rw [same', self, other t' same]
      exact fun there here => nomatch here.symm.trans ((others t' same).2.1 there).2
    · rw [other t' same, other t'' same']
      exact inv.one t' t''
  · by_cases same : t' = t
    · rw [same, self]
      exact fills
    · rw [other t' same]
      exact fun filling => ((others t' same).1 filling).2
  · by_cases same : t' = t
    · rw [same, self]
      exact hereSection.relock _ _
    · rw [other t' same]
      exact (others t' same).2.2.relock _ _
  · by_cases same : t' = t
    · rw [same, self]
      exact hereLocal
    · rw [other t' same]
      exact (inv.locals t').mono grown synced fun filling => ((others t' same).1 filling).1

theorem Inv.here (inv : Inv s) (here : s.threads t = pc) : Section s pc ∧ Local s pc :=
  here ▸ ⟨inv.sections t, inv.locals t⟩

/-- A thread moves on, and nothing else changes. -/
theorem Inv.move {pc₀ : Pc P} (inv : Inv s) (before : s.threads t = pc₀)
    (syncing : pc.syncing = pc₀.syncing) (filling : pc.filling = true → pc₀.filling = true)
    (hereSection : Section s pc) (hereLocal : Local s pc) : Inv (s.goto t pc) := by
  subst before
  refine inv.goto rfl inv.shared (prefix_refl _) (Nat.le_refl _) (fun t' apart => ?_)
    (fun here => inv.inSync t (syncing ▸ here)) (fun here => inv.fills t (filling here)) hereSection
    hereLocal
  refine ⟨fun there => ⟨rfl, inv.fills t' there⟩, fun there => ⟨inv.inSync t' there, ?_⟩, inv.sections t'⟩
  rw [syncing, eq_false_iff]
  exact fun here => apart (inv.one t' t there here)

section

/-- A new record is behind all that is covered. -/
theorem Covered.put {n : ℕ} (covered : Covered s n) (r : LogRec P) (upTo : n ≤ s.appended.length) :
    Covered (s.put r) n := by
  intro i below r' record full
  have here : (s.appended ++ [r])[i]? = some r' := record
  rw [getElem?_append_left (by omega)] at here
  exact covered i below r' here full

theorem bufs_put (s : State P) (r : LogRec P) : (s.put r).bufs s.curBuf = s.bufs s.curBuf ++ [r] ∧
      ∀ buf, buf ≠ s.curBuf → (s.put r).bufs buf = s.bufs buf :=
  ⟨update_self _ _ _, fun _ other => update_of_ne other _ _⟩

theorem other_ne {cur : ℕ} (small : cur < 2) : 1 - cur ≠ cur := by omega

/-- A new record stays in the buffer that is filled. -/
theorem Quiet.put (quiet : Quiet s) (cur : s.curBuf < 2) (r : LogRec P) : Quiet (s.put r) := by
  obtain ⟨here, others⟩ := bufs_put s r
  refine ⟨quiet.synced, ?_, ?_⟩
  · change s.appended ++ [r] = s.written ++ (s.put r).bufs s.curBuf
    rw [here, quiet.rest, append_assoc]
  · change (s.put r).bufs (1 - s.curBuf) = []
    rw [others _ (other_ne cur), quiet.other]

/-- A record more in the current buffer does not concern the thread in `mlog_sync`. -/
theorem Section.put (holds : Section s pc) (shared : Shared s) (r : LogRec P) :
    Section (s.put r) pc := by
  obtain ⟨here, others⟩ := bufs_put s r
  have apart := others _ (other_ne shared.cur)
  have upTo := shared.inOrder.length_le
  have older : ∀ j < s.written.length, ∀ r', (s.put r).appended[j]? = some r' →
      s.appended[j]? = some r' := fun j below r' record => by
    have appended : (s.appended ++ [r])[j]? = some r' := record
    rwa [getElem?_append_left (by omega)] at appended
  cases pc with
  | swap sync k => exact Quiet.put holds shared.cur r
  | flush buf syncedLsn i sync k =>
    obtain ⟨rfl, within, written, target, rest, full⟩ := holds
    refine ⟨rfl, ?_, written, ?_, ?_, fun j below since r' record => full j below since r' (older j below r' record)⟩
    · rwa [apart]
    · change syncedLsn = s.syncedLsn + ((s.put r).bufs (1 - s.curBuf)).length
      rwa [apart]
    · change s.appended ++ [r] = s.written ++ ((s.put r).bufs (1 - s.curBuf)).drop i ++
        (s.put r).bufs s.curBuf
      rw [apart, here, rest, append_assoc]
  | fsync buf syncedLsn sync k =>
    obtain ⟨rfl, target, more, rest, full⟩ := holds
    refine ⟨rfl, target, more, ?_, fun j below since r' record => full j below since r' (older j below r' record)⟩
    change s.appended ++ [r] = s.written ++ (s.put r).bufs s.curBuf
    rw [here, rest, append_assoc]
  | finish buf syncedLsn k =>
    obtain ⟨rfl, rfl, more, rest, covered⟩ := holds
    refine ⟨rfl, rfl, more, ?_, covered.put r upTo⟩
    change s.appended ++ [r] = s.written ++ (s.put r).bufs s.curBuf
    rw [here, rest, append_assoc]
  | idle | append | full | unlock | check | wait | done => trivial

theorem Shared.put (shared : Shared s) (r : LogRec P) : Shared (s.put r) where
  lsn := by
    change s.lsn + 1 = (s.appended ++ [r]).length
    rw [length_append, shared.lsn]
    rfl
  __ := shared
  covered := shared.covered.put r (Nat.le_trans shared.synced shared.inOrder.length_le)
  inOrder := shared.inOrder.trans (prefix_append _ _)
  quiet free := (shared.quiet free).put shared.cur r

/-- A record is appended by the owner of the lock. -/
theorem Inv.put (inv : Inv s) (r : LogRec P) (owner : (s.threads t).filling = true)
    (syncing : pc.syncing = false) (hereLocal : Local (s.put r) pc) :
    Inv ((s.put r).goto t pc) := by
  have lock := inv.fills t owner
  refine inv.goto rfl (inv.shared.put r) (prefix_append _ _) (Nat.le_refl _) (fun t' apart => ?_)
    (fun here => Bool.noConfusion (syncing.symm.trans here)) (fun _ => lock)
    (section_of_not_syncing syncing) hereLocal
  refine ⟨fun there => ?_, fun there => ⟨inv.inSync t' there, syncing⟩,
    (inv.sections t').put inv.shared r⟩
  exact absurd (Option.some.inj ((inv.fills t' there).symm.trans lock)) apart

/-- Once `synced_lsn` has reached the target, the caller's records are served. -/
theorem local_returned {k : Return P} (holds : k.Local s target)
    (reached : target ≤ s.syncedLsn) : Local s k.pc := by
  cases k with
  | ensureSpace call lo left => exact holds
  | caller call lo => exact ⟨holds.1, Nat.le_trans holds.2 reached⟩

theorem Return.syncing_pc (k : Return P) : k.pc.syncing = false := by
  cases k <;> rfl

theorem Return.filling_pc (k : Return P) : k.pc.filling = k.filling := by
  cases k <;> rfl

/-- The thread in `mlog_sync` changes the log while no other is there. -/
theorem Inv.sync {pc₀ : Pc P} {s₁ : State P} (inv : Inv s) (before : s.threads t = pc₀)
    (here : pc₀.syncing = true) (threads : s₁.threads = s.threads)
    (appended : s₁.appended = s.appended) (fillLock : s₁.fillLock = s.fillLock)
    (synced : s.syncedLsn ≤ s₁.syncedLsn) (shared : Shared s₁)
    (inSync : pc.syncing = true → s₁.inSync = true)
    (filling : pc.filling = true → pc₀.filling = true) (hereSection : Section s₁ pc)
    (hereLocal : Local s₁ pc) : Inv (s₁.goto t pc) := by
  subst before
  refine inv.goto threads shared (appended ▸ prefix_refl _) synced (fun t' apart => ?_) inSync
    (fun fill => fillLock ▸ inv.fills t (filling fill)) hereSection hereLocal
  have outside : (s.threads t').syncing = false :=
    eq_false_iff.mpr fun there => apart (inv.one t' t there here)
  refine ⟨fun there => ⟨appended, fillLock ▸ inv.fills t' there⟩, fun there => ?_,
    section_of_not_syncing outside⟩
  exact Bool.noConfusion (outside.symm.trans there)

variable {sync : Bool}

/-- A sync returns once its LSN is reached. -/
theorem Inv.returned {lsn : ℕ} {k : Return P} (inv : Inv s)
    (pc : s.threads t = .check lsn sync k ∨ s.threads t = .wait lsn sync k)
    (reached : lsn ≤ s.syncedLsn) : Inv (s.goto t k.pc) := by
  have hereLocal := inv.locals t
  have before : (s.threads t).syncing = false ∧ (s.threads t).filling = k.filling ∧ k.Local s lsn := by
    rcases pc with pc | pc <;> rw [pc] at hereLocal ⊢ <;> exact ⟨rfl, rfl, hereLocal⟩
  refine inv.move rfl (k.syncing_pc.trans before.1.symm) ?_ (section_of_not_syncing k.syncing_pc)
    (local_returned before.2.2 reached)
  rw [before.2.1, k.filling_pc]
  exact id

section

variable {lsn buf i : ℕ} {left : List (LogRec P)} {k : Return P}

section

variable (inv : Inv s) {r : LogRec P}

include inv

/-- A record with more to come. -/
theorem Inv.append (pc : s.threads t = .append call lo (r :: left))
    (more : left ≠ []) : Inv ((s.put r).goto t (.append call lo left)) := by
  obtain ⟨-, upTo, -, records⟩ := inv.here pc
  refine inv.put r (by rw [pc]; rfl) rfl ⟨?_, more, ?_⟩
  · change lo ≤ (s.appended ++ [r]).length
    rw [length_append]
    omega
  · change (s.appended ++ [r]).drop lo ++ left = call.records
    rw [drop_append_of_le_length upTo, append_assoc]
    exact records

/-- The last record of a call. -/
theorem Inv.appendLast (pc : s.threads t = .append call lo [r]) :
    Inv ((s.put r).goto t (.unlock call lo (s.lsn + 1))) := by
  obtain ⟨-, upTo, -, records⟩ := inv.here pc
  have logged : (s.appended ++ [r]).drop lo = call.records := by
    rw [drop_append_of_le_length upTo]
    exact records
  refine inv.put r (by rw [pc]; rfl) rfl ⟨?_, ?_⟩
  · change ((s.appended ++ [r]).drop lo).take call.records.length = call.records
    rw [logged, take_length]
  · rw [← logged, length_drop, length_append, inv.shared.lsn, length_singleton]
    omega

/-- The lock is let go before the sync. -/
theorem Inv.unlock (pc : s.threads t = .unlock call lo lsn) :
    Inv ({ s with fillLock := none }.goto t (.check lsn call.sync (.caller call lo))) := by
  have hereLocal := (inv.here pc).2
  have lock := inv.fills t (by rw [pc]; rfl)
  refine inv.goto rfl (inv.shared.relock none _) (prefix_refl _) (Nat.le_refl _) (fun t' apart => ?_)
    nofun nofun trivial hereLocal
  refine ⟨fun there => ?_, fun there => ⟨inv.inSync t' there, rfl⟩, (inv.sections t').relock none _⟩
  exact absurd (Option.some.inj ((inv.fills t' there).symm.trans lock)) apart

/-- A call takes the lock. -/
theorem Inv.start (free : s.fillLock = none) (call : Call P) :
    Inv ({ s with fillLock := some t }.goto t (.append call s.appended.length call.records)) := by
  refine inv.goto rfl (inv.shared.relock (some t) _) (prefix_refl _) (Nat.le_refl _)
    (fun t' apart => ?_) nofun (fun _ => rfl) trivial
    ⟨Nat.le_refl _, ?_, ?_⟩
  · refine ⟨fun there => ?_, fun there => ⟨inv.inSync t' there, rfl⟩, (inv.sections t').relock (some t) _⟩
    cases free.symm.trans (inv.fills t' there)
  · rw [Call.records]
    exact append_ne_nil_of_right_ne_nil _ (cons_ne_nil _ _)
  · change s.appended.drop s.appended.length ++ call.records = call.records
    rw [drop_length, nil_append]

/-- A thread that waits becomes the one that syncs. -/
theorem Inv.enter (pc : s.threads t = .wait lsn sync k) (free : s.inSync = false) :
    Inv ({ s with inSync := true }.goto t (.swap sync k)) := by
  have shared := inv.shared
  have hereLocal := (inv.here pc).2
  have quiet := shared.quiet free
  have nobody : ∀ t', (s.threads t').syncing = false := fun t' =>
    Bool.eq_false_iff.mpr fun there => Bool.noConfusion (free.symm.trans (inv.inSync t' there))
  refine inv.goto rfl ⟨shared.lsn, shared.cur, shared.durable, shared.synced, shared.covered,
    shared.inOrder, nofun⟩ (prefix_refl _) (Nat.le_refl _)
    (fun t' _ => ?_) (fun _ => rfl) (fun here => inv.fills t (by rw [pc]; exact here))
    { quiet with } ?_
  · exact ⟨fun there => ⟨rfl, inv.fills t' there⟩,
      fun there => (nomatch (nobody t').symm.trans there), section_of_not_syncing (nobody t')⟩
  · cases k with
    | ensureSpace call lo left => exact hereLocal
    | caller call lo =>
      obtain ⟨logged, _⟩ := hereLocal
      exact ⟨logged, logged.le⟩

/-- It swaps the buffers. -/
theorem Inv.swap (pc : s.threads t = .swap sync k) :
    Inv ({ s with curBuf := (s.curBuf + 1) % mlogNBufs }.goto t (.flush s.curBuf s.lsn 0 sync k)) := by
  have shared := inv.shared
  obtain ⟨⟨synced, rest, other⟩, hereLocal⟩ := inv.here pc
  have busy := inv.inSync t (by rw [pc]; rfl)
  have next : (s.curBuf + 1) % mlogNBufs = 1 - s.curBuf := by
    have := shared.cur
    unfold mlogNBufs
    omega
  have back : s.curBuf = 1 - (1 - s.curBuf) := by
    have := shared.cur
    omega
  refine inv.sync pc rfl rfl rfl rfl (Nat.le_refl _) ⟨shared.lsn, ?_, shared.durable,
    shared.synced, shared.covered, shared.inOrder, fun free => ?_⟩ (fun _ => busy)
    id ?_ ?_
  · exact Nat.mod_lt _ (by decide)
  · exact Bool.noConfusion (free.symm.trans busy)
  · refine ⟨?_, Nat.zero_le _, synced.symm, ?_, ?_, fun j below since => ?_⟩
    · change s.curBuf = 1 - (s.curBuf + 1) % mlogNBufs
      rw [next, ← back]
    · change s.lsn = s.syncedLsn + (s.bufs s.curBuf).length
      rw [shared.lsn, rest, length_append, synced]
    · change s.appended = s.written ++ (s.bufs s.curBuf).drop 0 ++ s.bufs ((s.curBuf + 1) % mlogNBufs)
      rw [next, other, append_nil, drop_zero, rest]
    · change j < s.written.length at below
      change s.syncedLsn ≤ j at since
      omega
  · change k.Local _ s.lsn
    rw [shared.lsn]
    exact Return.Local.mono hereLocal (prefix_refl _) (Nat.le_refl _) fun _ => rfl

/-- `flog_persist` of one record of the buffer. -/
theorem Inv.persist (pc : s.threads t = .flush buf target i sync k)
    (here : (s.bufs buf)[i]? = some r) : Inv ({ s with written := s.written ++ [r] }.goto t
      (.flush buf target (i + 1) (sync || r.isFull) k)) := by
  have shared := inv.shared
  obtain ⟨hereSection, hereLocal⟩ := inv.here pc
  have busy := inv.inSync t (by rw [pc]; rfl)
  obtain ⟨other, within, written, targetEq, rest, full⟩ := hereSection
  have below : i < (s.bufs buf).length := (List.getElem?_eq_some_iff.mp here).1
  have split : (s.bufs buf).drop i = r :: (s.bufs buf).drop (i + 1) := by
    rw [List.drop_eq_getElem_cons below, (List.getElem?_eq_some_iff.mp here).2]
  have rest' : s.appended = s.written ++ [r] ++ (s.bufs buf).drop (i + 1) ++ s.bufs s.curBuf := by
    rw [rest, split]
    simp
  have last : s.appended[s.written.length]? = some r := by
    rw [rest', append_assoc, append_assoc, getElem?_append_right (Nat.le_refl _), Nat.sub_self]
    rfl
  have length : (s.written ++ [r]).length = s.written.length + 1 := length_append
  refine inv.sync pc rfl rfl rfl rfl (Nat.le_refl _) ⟨shared.lsn, shared.cur, ?_, ?_,
    shared.covered, ?_, fun free => ?_⟩ (fun _ => busy) id ?_ hereLocal
  · change s.durable ≤ (s.written ++ [r]).length
    have := shared.durable
    omega
  · change s.syncedLsn ≤ (s.written ++ [r]).length
    omega
  · change s.written ++ [r] <+: s.appended
    rw [rest', append_assoc]
    exact prefix_append _ _
  · exact Bool.noConfusion (free.symm.trans busy)
  · refine ⟨other, below, ?_, targetEq, rest', fun j inside since r' record isFull => ?_⟩
    · change (s.written ++ [r]).length = s.syncedLsn + (i + 1)
      omega
    · change j < (s.written ++ [r]).length at inside
      rcases Nat.lt_or_ge j s.written.length with before | atLast
      · rw [full j before since r' record isFull, Bool.true_or]
      · obtain rfl : j = s.written.length := by omega
        have same : s.appended[s.written.length]? = some r' := record
        rw [last, Option.some.injEq] at same
        rw [same, isFull, Bool.or_true]

/-- All records of the buffer are written. -/
theorem Inv.flushed (pc : s.threads t = .flush buf target i sync k)
    (atEnd : (s.bufs buf)[i]? = none) : Inv (s.goto t (.fsync buf target sync k)) := by
  obtain ⟨hereSection, hereLocal⟩ := inv.here pc
  obtain ⟨other, within, written, targetEq, rest, full⟩ := hereSection
  have past := getElem?_eq_none_iff.mp atEnd
  refine inv.move pc rfl id ⟨other, by omega, by omega, ?_, full⟩ hereLocal
  rwa [drop_eq_nil_of_le past, append_nil] at rest

/-- The sync, if one of the records or the caller asked for it. -/
theorem Inv.fsync (pc : s.threads t = .fsync buf target sync k) :
    Inv ((if sync then { s with durable := s.written.length } else s).goto t
      (.finish buf target k)) := by
  have shared := inv.shared
  obtain ⟨hereSection, hereLocal⟩ := inv.here pc
  have busy := inv.inSync t (by rw [pc]; rfl)
  obtain ⟨other, rfl, more, rest, full⟩ := hereSection
  cases sync with
  | true =>
    have all : ∀ n ≤ s.written.length, Covered { s with durable := s.written.length } n :=
      fun n upTo i below _ _ _ => Nat.lt_of_lt_of_le below upTo
    refine inv.sync pc rfl rfl rfl rfl (Nat.le_refl _) ⟨shared.lsn, shared.cur,
      Nat.le_refl _, shared.synced, all _ shared.synced, shared.inOrder, fun free => ?_⟩
      (fun _ => busy) id ⟨other, rfl, more, rest, all _ (Nat.le_refl _)⟩
      hereLocal
    exact Bool.noConfusion (free.symm.trans busy)
  | false =>
    refine inv.move pc rfl id ⟨other, rfl, more, rest, ?_⟩ hereLocal
    intro j below r record isFull
    rcases Nat.lt_or_ge j s.syncedLsn with before | new
    · exact shared.covered j before r record isFull
    · exact Bool.noConfusion (full j below new r record isFull)

/-- The last section of `mlog_sync`. -/
theorem Inv.finish (pc : s.threads t = .finish buf target k) :
    Inv ({ s.setBuf buf [] with syncedLsn := target, inSync := false }.goto t k.pc) := by
  have shared := inv.shared
  obtain ⟨hereSection, hereLocal⟩ := inv.here pc
  obtain ⟨rfl, rfl, more, rest, covered⟩ := hereSection
  have apart := other_ne shared.cur
  have emptied : (s.setBuf (1 - s.curBuf) []).bufs (1 - s.curBuf) = [] := update_self _ _ _
  have kept : (s.setBuf (1 - s.curBuf) []).bufs s.curBuf = s.bufs s.curBuf :=
    update_of_ne (Ne.symm apart) _ _
  refine inv.sync pc rfl rfl rfl rfl more ⟨shared.lsn, shared.cur, shared.durable,
    Nat.le_refl _, covered, shared.inOrder, fun _ => ⟨rfl, ?_, emptied⟩⟩ ?_ ?_
    (section_of_not_syncing k.syncing_pc) (local_returned hereLocal (Nat.le_refl _))
  · change s.appended = s.written ++ (s.setBuf (1 - s.curBuf) []).bufs s.curBuf
    rw [kept, rest]
  · exact fun here => Bool.noConfusion (k.syncing_pc.symm.trans here)
  · rw [k.filling_pc]
    exact id

end

end

/-- Every step of a thread keeps the invariant. -/
theorem Inv.advance (inv : Inv s) (taken : advance s t = some s') : Inv s' := by
  have hereLocal := inv.locals t
  unfold Mlog.advance at taken
  cases pc : s.threads t with
  | idle | done =>
    rw [pc] at taken
    cases taken
  | append call lo left =>
    rw [pc] at taken hereLocal
    cases left with
    | nil => cases taken
    | cons r left =>
      split_ifs at taken with full
      · cases taken
        exact inv.move pc rfl id trivial hereLocal
      · cases left with
        | nil =>
          cases taken
          exact inv.appendLast pc
        | cons r' left =>
          cases taken
          exact inv.append pc (cons_ne_nil _ _)
  | full call lo left =>
    rw [pc] at taken hereLocal
    cases taken
    exact inv.move pc rfl id trivial hereLocal
  | unlock call lo lsn =>
    rw [pc] at taken
    cases taken
    exact inv.unlock pc
  | check lsn sync k =>
    rw [pc] at taken hereLocal
    dsimp only at taken
    split_ifs at taken with reached
    · cases taken
      exact inv.returned (.inl pc) reached
    · cases taken
      exact inv.move pc rfl id trivial hereLocal
  | wait lsn sync k =>
    rw [pc] at taken hereLocal
    dsimp only at taken
    split_ifs at taken with busy reached
    · cases taken
      exact inv.returned (.inr pc) reached
    · cases taken
      refine inv.enter pc (eq_false_iff.mpr fun there => busy ⟨there, by omega⟩)
  | swap sync k =>
    rw [pc] at taken
    cases taken
    exact inv.swap pc
  | flush buf target i sync k =>
    rw [pc] at taken
    dsimp only at taken
    cases here : (s.bufs buf)[i]? with
    | none =>
      rw [here] at taken
      cases taken
      exact inv.flushed pc here
    | some r =>
      rw [here] at taken
      cases taken
      exact inv.persist pc here
  | fsync buf target sync k =>
    rw [pc] at taken
    cases taken
    exact inv.fsync pc
  | finish buf target k =>
    rw [pc] at taken
    cases taken
    exact inv.finish pc

end

theorem inv_init : Inv ({} : State P) where
  shared := ⟨rfl, Nat.two_pos, Nat.le_refl _, Nat.le_refl _, nofun,
    prefix_refl _, fun _ => ⟨rfl, rfl, rfl⟩⟩
  inSync := nofun
  one := nofun
  fills := nofun
  sections _ := trivial
  locals _ := trivial

/-- So does every action. -/
theorem Inv.step {action : Action P} (inv : Inv s) (taken : step s action = some s') : Inv s' := by
  cases action with
  | go t => exact inv.advance taken
  | start t call =>
    rw [Mlog.step] at taken
    split_ifs at taken with free
    cases taken
    exact inv.start free.1 call

/-- Where one of the records has full durability, the last one has. -/
def Call.LastFull (call : Call P) : Prop :=
  call.sync = true → call.last.isFull = true

/-- In every interleaving, records are written once each, in the order of the log, and a call that
returned has all its records written. If it asked for a sync, and its last record did, one came
after them. -/
theorem group_commit_durable {actions : List (Action P)}
    (reached : Machine.run step {} actions = some s) :
    s.written <+: s.appended ∧ ∀ t call lo, s.threads t = .done call lo →
      Logged s call lo ∧ lo + call.records.length ≤ s.written.length ∧
        (call.LastFull → call.sync = true → lo + call.records.length ≤ s.durable) := by
  have inv : Inv s := run_preserves (fun inv taken => Inv.step inv taken) inv_init reached
  refine ⟨inv.shared.inOrder, fun t call lo returned => ?_⟩
  have served := inv.locals t
  rw [returned] at served
  obtain ⟨logged, upTo⟩ := served
  refine ⟨logged, Nat.le_trans upTo inv.shared.synced, fun lastFull sync => ?_⟩
  -- the last record is at `lo + length - 1`
  have recordsPos := call.records_pos
  have last : s.appended[lo + call.records.length - 1]? = some call.last := by
    have inList : call.records[call.records.length - 1]? = some call.last := by
      rw [Call.records, length_append, length_singleton, Nat.add_sub_cancel,
        getElem?_append_right (Nat.le_refl _), Nat.sub_self]
      rfl
    rw [← logged, getElem?_take_of_lt (by rw [logged]; omega), getElem?_drop, logged] at inList
    rwa [Nat.add_sub_assoc recordsPos]
  have := inv.shared.covered _ (by omega) _ last (lastFull sync)
  omega

/-- A transaction whose last record has full durability. -/
def served : Call ℕ := .commit 0 [⟨some 1, .no⟩] ⟨some 2, .full⟩

/-- Thread 1 is about to swap the buffers when thread 0 appends its records. It writes and syncs them
with its own, and thread 0 finds nothing left to do. -/
def servedByOther : List (Action ℕ) :=
  .start 1 (.write ⟨some 0, .no⟩) :: replicate 4 (.go 1) ++
  .start 0 served :: replicate 3 (.go 0) ++ replicate 7 (.go 1) ++ [.go 0]

theorem group_commit_durable_servedByOther :
    ∃ s : State ℕ, run step {} servedByOther = some s ∧
      s.threads 1 = .done (.write ⟨some 0, .no⟩) 0 ∧ s.threads 0 = .done served 1 ∧
      1 + 2 ≤ s.durable := by
  refine ⟨_, rfl, rfl, rfl, ?_⟩
  have reached : Machine.run step {} servedByOther = some _ := rfl
  exact ((group_commit_durable reached).2 0 _ 1 rfl).2.2 id rfl

/-- A transaction whose first record alone has full durability. -/
def mixed : Call ℕ := .commit 0 [⟨some 1, .full⟩] ⟨some 2, .no⟩

/-- Thread 1 swaps the buffers between the two records of thread 0. Thread 2 writes the second one
without a sync, and thread 0 finds it written. -/
def lateSwap : List (Action ℕ) :=
  .start 1 (.write ⟨some 0, .no⟩) :: replicate 4 (.go 1) ++
  [.start 0 mixed, .go 0, .go 1, .go 0, .go 0] ++ replicate 5 (.go 1) ++
  .start 2 (.write ⟨some 3, .no⟩) :: replicate 10 (.go 2) ++ [.go 0]

theorem second_record_not_synced :
    ∃ s : State ℕ, run step {} lateSwap = some s ∧ s.threads 0 = .done mixed 1 ∧
      mixed.sync = true ∧ s.written = [⟨some 0, .no⟩, ⟨some 1, .full⟩, ⟨some 2, .no⟩, ⟨some 3, .no⟩] ∧
      s.durable = 2 :=
  ⟨_, rfl, rfl, rfl, rfl, rfl⟩

/-- `in_sync` and `sync_fill_lock`, each with where the thread is that set it. -/
def flags : List ((State P → Bool) × (Pc P → Bool)) :=
  [(State.inSync, Pc.syncing), (fun s => s.fillLock.isSome, Pc.filling)]

/-- A flag that is set after a step is the thread's, or another thread had set it before. -/
theorem step_frame {action : Action P} (taken : step s action = some s') :
    ∃ t, (∀ t', t' ≠ t → s'.threads t' = s.threads t') ∧ ∀ flag ∈ flags, flag.1 s' = true →
      flag.2 (s'.threads t) = true ∨ flag.1 s = true ∧ flag.2 (s.threads t) = false := by
  cases action with
  | start t call =>
    rw [step] at taken
    split_ifs at taken with free
    cases taken
    refine ⟨t, ?_⟩
    cases thread : s.threads t <;>
      simp_all +contextual [flags, State.goto, Pc.isFree, Pc.syncing, Pc.filling]
  | go t =>
    rw [step] at taken
    unfold advance at taken
    split at taken <;> rename_i thread <;> repeat' split at taken
    all_goals cases taken
    all_goals try cases ‹Return P›
    all_goals exact ⟨t, by simp +contextual [flags, State.goto, State.put, State.setBuf, thread,
      Pc.syncing, Pc.filling, Return.pc, Return.filling]⟩

/-- While a flag is set, there is a thread that will clear it. -/
def Owned (s : State P) : Prop :=
  ∀ flag ∈ flags, flag.1 s = true → ∃ t, flag.2 (s.threads t) = true

/-- While a flag is set, some thread will clear it. -/
theorem Owned.step {action : Action P} (owned : Owned s) (taken : step s action = some s') :
    Owned s' := by
  intro flag mem isSet
  obtain ⟨t, others, frame⟩ := step_frame taken
  rcases frame flag mem isSet with here | ⟨before, out⟩
  · exact ⟨t, here⟩
  · obtain ⟨t', there⟩ := owned flag mem before
    refine ⟨t', (others t' ?_).symm ▸ there⟩
    rintro rfl
    cases there.symm.trans out

/-- A thread that cannot go on waits for the one in `mlog_sync`, or is in no call. -/
theorem Inv.stuck (inv : Inv s) (stuck : Mlog.advance s t = none) :
    (s.threads t).syncing = false ∧ (s.inSync = true ∨
      (s.threads t).isFree = true ∧ (s.threads t).filling = false) := by
  unfold Mlog.advance at stuck
  split at stuck <;> rename_i thread <;> rw [thread] <;> repeat' split at stuck
  case h_1 | h_12 => exact ⟨rfl, .inr ⟨rfl, rfl⟩⟩
  case h_2 => exact absurd rfl (inv.here thread).2.2.1
  case h_7.isTrue busy => exact ⟨rfl, .inl busy.1⟩
  all_goals cases stuck

/-- Some thread can go on, or all are out of their calls and `sync_fill_lock` is free. -/
def Live (s : State P) : Prop :=
  (∃ t, (advance s t).isSome = true) ∨ s.fillLock = none ∧ ∀ t, (s.threads t).isFree = true

/-- No interleaving ends in a deadlock. -/
theorem group_commit_live {actions : List (Action P)}
    (reached : Machine.run step {} actions = some s) : Live s := by
  have inv : Inv s := run_preserves Inv.step inv_init reached
  have owned : Owned s := run_preserves Owned.step (by simp [Owned, flags]) reached
  by_contra dead
  obtain ⟨waits, busy⟩ := not_or.mp dead
  have stuck := fun t => inv.stuck (Option.not_isSome_iff_eq_none.mp fun goes => waits ⟨t, goes⟩)
  have idle : s.inSync ≠ true := by
    intro isSet
    obtain ⟨t, syncing⟩ := owned _ mem_cons_self isSet
    cases syncing.symm.trans (stuck t).1
  have free := fun t => (stuck t).2.resolve_left idle
  obtain ⟨t, filling⟩ := owned _ (mem_cons_of_mem _ mem_cons_self)
    (Option.isSome_iff_ne_none.mpr fun unlocked => busy ⟨unlocked, fun t => (free t).1⟩)
  cases filling.symm.trans (free t).2

theorem group_commit_live_lateSwap : ∃ s : State ℕ, run step {} lateSwap = some s ∧ Live s :=
  ⟨_, rfl, @group_commit_live ℕ _ lateSwap rfl⟩

end Zetascale.Flash.Mlog
