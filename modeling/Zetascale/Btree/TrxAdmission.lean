import Zetascale.Lib.Machine

/-!
# Admission of transactions

`_trxstart` and `_trxcommit` (`btree/trx.c`) let transactions in by clusters: a
transaction starts while fewer have started than the limit, the others wait, and
the commit that concludes the last one of a cluster ends it, asks for the size of
the next and lets the waiting ones in. What they do under `activetrxlock` is one
step. The three counters are 32 bits wide, the nesting level of a bracket 16.
-/

namespace Zetascale.Btree.TrxAdmission

open Function List Option Finset Machine

variable {ι : Type} [DecidableEq ι]

/-- The counters, the threads whose transactions are let in and not concluded,
with the level of their brackets, and `waitingtrxlist`. -/
structure Cluster (ι : Type) where
  ntrxstarted : ℕ
  ntrxconcluded : ℕ
  ntrxlimit : ℕ
  holders : Finset ι
  level : ι → ℕ
  waitingtrxlist : List ι

/-- After `trxinit`. `ntrxpermitted` is 1. -/
def Cluster.init : Cluster ι := ⟨0, 0, 1, ∅, fun _ => 0, []⟩

/-- `_trxstart`, with whether `talloc` and `ZSTransactionStart` succeed, and
`_trxcommit`, with the number of transactions that `ZSTransactionService` grants
if it is asked. -/
inductive Call (ι : Type)
  | start (thread : ι) (succeeds : Bool)
  | commit (thread : ι) (n : ℕ)

namespace Cluster

/-- `_trxstart` -/
def trxstart (s : Cluster ι) (thread : ι) (succeeds : Bool) : Cluster ι :=
  if thread ∈ s.holders then
    { s with level := update s.level thread ((s.level thread + 1) % 2 ^ 16) }
  else if succeeds = false then s
  else if s.ntrxstarted < s.ntrxlimit then
    { s with
      ntrxstarted := (s.ntrxstarted + 1) % 2 ^ 32
      holders := insert thread s.holders
      level := update s.level thread 1 }
  else
    { s with
      level := update s.level thread 1
      waitingtrxlist := thread :: s.waitingtrxlist }

/-- The loop that lets waiting transactions in. -/
def admitWaiting (ntrxlimit : ℕ) : ℕ → Finset ι → List ι → ℕ × Finset ι × List ι
  | ntrxstarted, holders, [] => (ntrxstarted, holders, [])
  | ntrxstarted, holders, t :: rest =>
    if ntrxstarted < ntrxlimit then
      admitWaiting ntrxlimit ((ntrxstarted + 1) % 2 ^ 32) (insert t holders) rest
    else (ntrxstarted, holders, t :: rest)

/-- `startcluster`, and the transactions let in after it. -/
def startcluster (s : Cluster ι) (n : ℕ) : Cluster ι :=
  let ntrxlimit := (s.ntrxlimit + n) % 2 ^ 32
  let (ntrxstarted, holders, waitingtrxlist) :=
    admitWaiting ntrxlimit s.ntrxstarted s.holders s.waitingtrxlist
  { s with ntrxstarted, ntrxlimit, holders, waitingtrxlist }

/-- The commit closes the outermost bracket of a transaction. -/
def Concludes (s : Cluster ι) (thread : ι) : Prop :=
  thread ∈ s.holders ∧ (s.level thread + 2 ^ 16 - 1) % 2 ^ 16 = 0

/-- The commit signals the end of the cluster. -/
def Signals (s : Cluster ι) (thread : ι) : Prop :=
  s.Concludes thread ∧ s.ntrxlimit ≤ (s.ntrxconcluded + 1) % 2 ^ 32

instance (s : Cluster ι) (thread : ι) : Decidable (s.Concludes thread) :=
  inferInstanceAs (Decidable (_ ∧ _))

instance (s : Cluster ι) (thread : ι) : Decidable (s.Signals thread) :=
  inferInstanceAs (Decidable (_ ∧ _))

/-- `_trxcommit` -/
def trxcommit (s : Cluster ι) (thread : ι) (n : ℕ) : Cluster ι :=
  if thread ∈ s.holders then
    let left := { s with
      level := update s.level thread ((s.level thread + 2 ^ 16 - 1) % 2 ^ 16) }
    if s.Concludes thread then
      let concluded := { left with
        ntrxconcluded := (s.ntrxconcluded + 1) % 2 ^ 32
        holders := s.holders.erase thread }
      if s.Signals thread then concluded.startcluster n else concluded
    else left
  else s

/-- A call of a thread that does not wait. -/
def step (s : Cluster ι) : Call ι → Option (Cluster ι)
  | .start thread succeeds =>
    if thread ∈ s.waitingtrxlist then none else some (s.trxstart thread succeeds)
  | .commit thread n => if thread ∈ s.waitingtrxlist then none else some (s.trxcommit thread n)

/-- The number of open transactions is the difference of the counters, a cluster
ends with its last open transaction, and nobody waits while none is open. -/
structure Right (s : Cluster ι) : Prop where
  counted : s.holders.card = (s.ntrxstarted + 2 ^ 32 - s.ntrxconcluded) % 2 ^ 32
  alone : ∀ thread, s.Signals thread → s.holders = {thread}
  unstuck : s.waitingtrxlist ≠ [] → s.holders.Nonempty

/-- The service grants a transaction at least, and the limit stays below the
width of the counters. -/
def WithinWidth (s : Cluster ι) : Call ι → Prop
  | .start .. => True
  | .commit thread n => s.Signals thread → 0 < n ∧ s.ntrxlimit + n < 2 ^ 32

instance (s : Cluster ι) : (call : Call ι) → Decidable (s.WithinWidth call)
  | .start .. => inferInstanceAs (Decidable True)
  | .commit .. => inferInstanceAs (Decidable (_ → _))

/-- What holds between two calls as long as the limit does not wrap. -/
structure Inv (s : Cluster ι) : Prop where
  width : s.ntrxlimit < 2 ^ 32
  started : s.ntrxstarted ≤ s.ntrxlimit
  concluded : s.ntrxconcluded < s.ntrxlimit
  counted : s.ntrxconcluded + s.holders.card = s.ntrxstarted
  nodup : s.waitingtrxlist.Nodup
  apart : ∀ thread ∈ s.waitingtrxlist, thread ∉ s.holders
  full : s.waitingtrxlist ≠ [] → s.ntrxstarted = s.ntrxlimit

variable {s : Cluster ι} {thread : ι}

omit [DecidableEq ι] in
theorem Inv.alone (inv : Inv s) (signals : s.Signals thread) : s.holders = {thread} := by
  obtain ⟨⟨mem, -⟩, reached⟩ := signals
  obtain ⟨width, started, concluded, counted, -⟩ := inv
  have one : s.holders.card ≤ 1 := by omega
  exact eq_singleton_iff_unique_mem.mpr
    ⟨mem, fun other here => card_le_one.mp one other here thread mem⟩

omit [DecidableEq ι] in
theorem Inv.right (inv : Inv s) : s.Right := by
  obtain ⟨width, started, concluded, counted, -, -, full⟩ := id inv
  refine ⟨by omega, fun _ => inv.alone, fun waits => ?_⟩
  have := full waits
  exact card_pos.mp (by omega)

/-- The loop stops at the limit, or when nobody waits. -/
theorem admit_spec {limit started : ℕ} {holders : Finset ι} {waiting : List ι}
    (width : limit < 2 ^ 32) (below : started ≤ limit) (nodup : waiting.Nodup)
    (apart : ∀ t ∈ waiting, t ∉ holders) {started' : ℕ} {holders' : Finset ι} {waiting' : List ι}
    (left : admitWaiting limit started holders waiting = (started', holders', waiting')) :
    started' ≤ limit ∧ started' + holders.card = started + holders'.card ∧ waiting'.Nodup ∧
      (∀ t ∈ waiting', t ∉ holders') ∧ (waiting' ≠ [] → started' = limit) := by
  induction waiting generalizing started holders with
  | nil =>
    cases left
    exact ⟨below, rfl, nodup, apart, fun never => absurd rfl never⟩
  | cons t rest ih =>
    unfold admitWaiting at left
    split_ifs at left with room
    · obtain ⟨fresh, nodup⟩ := nodup_cons.mp nodup
      rw [Nat.mod_eq_of_lt (by omega)] at left
      have apart' : ∀ other ∈ rest, other ∉ insert t holders := by
        intro other later
        rw [mem_insert, not_or]
        exact ⟨fun same => fresh (same ▸ later), apart other (mem_cons_of_mem t later)⟩
      obtain ⟨upto, counted, onward⟩ := ih room nodup apart' left
      rw [card_insert_of_notMem (apart t mem_cons_self)] at counted
      exact ⟨upto, by omega, onward⟩
    · cases left
      exact ⟨below, rfl, nodup, apart, fun _ => by omega⟩

theorem Inv.start (inv : Inv s) (awake : thread ∉ s.waitingtrxlist) (succeeds : Bool) :
    Inv (s.trxstart thread succeeds) := by
  obtain ⟨width, started, concluded, counted, nodup, apart, full⟩ := id inv
  unfold trxstart
  split_ifs with nested failed room
  · exact { inv with }
  · exact inv
  · have fits : (s.ntrxstarted + 1) % 2 ^ 32 = s.ntrxstarted + 1 := Nat.mod_eq_of_lt (by omega)
    rw [fits]
    refine ⟨width, room, concluded, ?_, nodup, fun other waits => ?_, fun waits => ?_⟩
    · show s.ntrxconcluded + (insert thread s.holders).card = s.ntrxstarted + 1
      rw [card_insert_of_notMem nested]
      omega
    · rw [mem_insert, not_or]
      exact ⟨fun same => awake (same ▸ waits), apart other waits⟩
    · exact absurd (full waits) room.ne
  · refine ⟨width, started, concluded, counted, nodup_cons.mpr ⟨awake, nodup⟩,
      forall_mem_cons.mpr ⟨nested, apart⟩, fun _ => le_antisymm started (not_lt.mp room)⟩

theorem Inv.commit (inv : Inv s) {n : ℕ} (within : s.WithinWidth (.commit thread n)) :
    Inv (s.trxcommit thread n) := by
  obtain ⟨width, started, concluded, counted, nodup, apart, full⟩ := id inv
  unfold trxcommit
  split_ifs with mem outermost signals
  · -- the last open transaction of the cluster
    obtain ⟨granted, width'⟩ := within signals
    have alone := inv.alone signals
    rw [alone, card_singleton] at counted
    have fits : (s.ntrxconcluded + 1) % 2 ^ 32 = s.ntrxstarted := by
      rw [counted]
      exact Nat.mod_eq_of_lt (by omega)
    simp only [startcluster, alone, erase_singleton, fits, Nat.mod_eq_of_lt width']
    generalize left : admitWaiting (s.ntrxlimit + n) s.ntrxstarted ∅ s.waitingtrxlist = final
    obtain ⟨upto, card, onward⟩ :=
      admit_spec width' (by omega) nodup (fun t _ => notMem_empty t) left
    have below : s.ntrxstarted < s.ntrxlimit + n := by omega
    exact ⟨width', upto, below, card.symm, onward.1, onward.2.1, onward.2.2⟩
  · have more : (s.ntrxconcluded + 1) % 2 ^ 32 < s.ntrxlimit :=
      not_le.mp fun reached => signals ⟨outermost, reached⟩
    have card := card_erase_add_one mem
    have fewer : (s.ntrxconcluded + 1) % 2 ^ 32 + (s.holders.erase thread).card = s.ntrxstarted := by
      omega
    exact ⟨width, started, more, fewer, nodup,
      fun other waits here => apart other waits (mem_of_mem_erase here), full⟩
  · exact { inv with }
  · exact inv

theorem Inv.step {next : Cluster ι} {call : Call ι} (inv : Inv s) (within : s.WithinWidth call)
    (taken : s.step call = some next) : Inv next := by
  cases call with
  | start thread succeeds =>
    simp only [Cluster.step, ite_none_left_eq_some, some.injEq] at taken
    obtain ⟨awake, rfl⟩ := taken
    exact inv.start awake succeeds
  | commit thread n =>
    simp only [Cluster.step, ite_none_left_eq_some, some.injEq] at taken
    obtain ⟨-, rfl⟩ := taken
    exact inv.commit within

omit [DecidableEq ι] in
theorem inv_init : Inv (init : Cluster ι) :=
  ⟨Nat.one_lt_two_pow (by decide), Nat.zero_le _, Nat.one_pos, rfl, nodup_nil,
    nofun, fun waits => absurd rfl waits⟩

/-- In every run in which the limit stays below the width of the counters, the
counters tell the open transactions, clusters end with their last transaction,
and the waiting ones are not stuck. -/
theorem admission_right {calls : List (Call ι)} {s : Cluster ι}
    (within : Machine.Admitted step WithinWidth init calls)
    (reached : run step init calls = some s) : s.Right :=
  (run_induction Inv.step inv_init within reached).right

/-- Of two threads the second waits for the first, and both come to their end. -/
theorem admission_right_of_two :
    ∃ s : Cluster (Fin 2), run step init
      [.start 0 true, .start 1 true, .commit 0 10, .commit 1 0] = some s ∧ s.Right := by
  have within : Machine.Admitted step WithinWidth (init : Cluster (Fin 2))
      [.start 0 true, .start 1 true, .commit 0 10, .commit 1 0] := by decide
  exact ⟨_, rfl, admission_right within rfl⟩

/-- A thread that starts and commits `k` transactions, with ten granted to every
cluster. -/
def rounds : ℕ → List (Call Unit)
  | 0 => []
  | k + 1 => rounds k ++ [.start () true, .commit () 10]

/-- After `k` transactions, with none open. -/
def idle (k ntrxlimit : ℕ) : Cluster Unit := ⟨k, k, ntrxlimit, ∅, fun _ => 0, []⟩

theorem round_eq {k ntrxlimit : ℕ} (more : k < ntrxlimit) (width : ntrxlimit < 2 ^ 32) :
    run step (idle k ntrxlimit) [.start () true, .commit () 10] = some (idle (k + 1)
        (if k + 1 < ntrxlimit then ntrxlimit else (ntrxlimit + 10) % 2 ^ 32)) := by
  have fits : (k + 1) % 2 ^ 32 = k + 1 := Nat.mod_eq_of_lt (by omega)
  have started : (idle k ntrxlimit).trxstart () true =
      ⟨k + 1, k, ntrxlimit, {()}, update (fun _ => 0) () 1, []⟩ := by
    simp only [trxstart, idle, if_pos more, fits]
    rfl
  have outermost : Concludes ⟨k + 1, k, ntrxlimit, {()}, update (fun _ => 0) () 1, []⟩ () :=
    ⟨Finset.mem_singleton_self _, by simp⟩
  have concluded : (⟨k + 1, k, ntrxlimit, {()}, update (fun _ => 0) () 1, []⟩ :
      Cluster Unit).trxcommit () 10 = idle (k + 1)
        (if k + 1 < ntrxlimit then ntrxlimit else (ntrxlimit + 10) % 2 ^ 32) := by
    rw [trxcommit, if_pos (Finset.mem_singleton_self _), if_pos outermost]
    split_ifs with signals below below
    · exact absurd (fits ▸ signals.2) (not_le.mpr below)
    · simp only [startcluster, admitWaiting, idle, fits, erase_singleton]
      rfl
    · simp only [idle, fits, erase_singleton]
      rfl
    · exact absurd ⟨outermost, fits.symm ▸ not_lt.mp below⟩ signals
  have awake : () ∉ (idle k ntrxlimit).waitingtrxlist := not_mem_nil
  simp [run, step, if_neg awake, started, concluded]

theorem rounds_eq {k : ℕ} (width : 10 * ((k + 9) / 10) + 1 < 2 ^ 32) :
    run step init (rounds k) = some (idle k (10 * ((k + 9) / 10) + 1)) := by
  induction k with
  | zero => rfl
  | succ k ih =>
    rw [rounds, run_append, ih (by omega), bind_some, round_eq (by omega) (by omega)]
    congr 2
    split_ifs <;> omega

/-- In the end the limit wraps. The next transaction waits, and none is open. -/
theorem waits_for_nobody :
    ∃ k s, run step init (rounds k ++ [.start () true]) = some s ∧
      s.waitingtrxlist = [()] ∧ s.holders = ∅ := by
  obtain ⟨k, last⟩ : ∃ k, k = 4294967290 := ⟨_, rfl⟩
  have wrapped : run step init (rounds (k + 1)) = some (idle (k + 1) 5) := by
    rw [rounds, run_append, rounds_eq (by omega), bind_some,
      round_eq (by omega) (by omega)]
    congr 2
    split_ifs <;> omega
  refine ⟨k + 1, { idle (k + 1) 5 with
    level := update (fun _ => 0) () 1, waitingtrxlist := [()] }, ?_, rfl, rfl⟩
  have beyond : ¬ k + 1 < 5 := by omega
  rw [run_append, wrapped, bind_some]
  simp [run, step, trxstart, idle, beyond]

end Cluster

end Zetascale.Btree.TrxAdmission
