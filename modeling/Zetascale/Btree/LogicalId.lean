import Zetascale.Lib.Machine

/-!
# Logical node ids

`get_new_node_low` (`btree/btree_raw.c`) numbers the nodes of a tree from
`logical_id_counter`. The counter reaches flash only every
`META_COUNTER_SAVE_INTERVAL` allocations: the cached counter node is then set
to it and put on the allocating thread's list of modified meta-nodes, to be
written by that thread's next flush. `loadpersistent` resumes one interval
above the counter it finds.

The actions are those of the threads that share the tree: an allocation, a
flush that writes everything its thread has listed, a flush that writes
nothing and is followed by `btree_io_error_cleanup`, the eviction of the
counter node from the node cache, and a crash with the recovery after it.
-/

namespace Zetascale.LogicalId

open Machine Function List

/-- Allocations between two saves of the counter. -/
def META_COUNTER_SAVE_INTERVAL : ℕ := 100000

/-- A tree is one of the partitions of its container. -/
structure Partition where
  n_partitions : ℕ
  n_partition : ℕ
  lt : n_partition < n_partitions

/-- The logical id made from one value of the counter. -/
def Partition.logicalId (p : Partition) (counter : ℕ) : ℕ :=
  counter * p.n_partitions + p.n_partition

theorem Partition.logicalId_lt_iff (p : Partition) {a b : ℕ} :
    p.logicalId a < p.logicalId b ↔ a < b := by
  have positive : 0 < p.n_partitions := Nat.zero_lt_of_lt p.lt
  unfold logicalId
  rw [Nat.add_lt_add_iff_right]
  exact Nat.mul_lt_mul_right positive

/-- What one thread has listed for its next flush. -/
structure Pending where
  /-- Ids of the nodes in `modified_nodes` that are new. -/
  nodes : List ℕ
  /-- The counter node is in `modified_metanodes`. -/
  counterNode : Bool

/-- Empty lists. -/
def Pending.none : Pending := ⟨[], false⟩

/-- The state of one tree, shared by `threads` threads. -/
structure State (threads : ℕ) where
  /-- `logical_id_counter` of the tree. -/
  counter : ℕ
  /-- `logical_id_counter` of the cached counter node. -/
  cached : ℕ
  /-- `logical_id_counter` of the counter node on flash. -/
  durable : ℕ
  pending : Fin threads → Pending
  /-- Ids of all nodes ever written. -/
  flushed : List ℕ

open State

variable {threads : ℕ}

/-- A tree right after `createpersistent`; its root is yet to be allocated. -/
def State.initial : State threads where
  counter := 1
  cached := 1
  durable := 1
  pending := fun _ => .none
  flushed := []

/-- The id the next call of `get_new_node_low` returns. -/
def State.nextId (p : Partition) (s : State threads) : ℕ := p.logicalId s.counter

/-- `savepersistent(FLUSH_COUNTER_INTERVAL, false)` by thread `t`. -/
def State.savepersistent (s : State threads) (t : Fin threads) : State threads :=
  if META_COUNTER_SAVE_INTERVAL ≤ s.counter - s.cached then
    { s with
      cached := s.counter
      pending := update s.pending t { s.pending t with counterNode := true } }
  else s

/-- `get_new_node_low`: draw an id, perhaps list the counter node, list the node. -/
def State.getNewNode (p : Partition) (s : State threads) (t : Fin threads) : State threads :=
  let counted := { s with counter := s.counter + 1 }
  let saved := counted.savepersistent t
  let listed := { saved.pending t with nodes := s.nextId p :: (saved.pending t).nodes }
  { saved with pending := update saved.pending t listed }

/-- `deref_l1cache` with every write successful. -/
def State.flush (s : State threads) (t : Fin threads) : State threads :=
  { s with
    durable := if (s.pending t).counterNode then s.cached else s.durable
    flushed := (s.pending t).nodes ++ s.flushed
    pending := update s.pending t .none }

/-- `deref_l1cache` with a failed write: `btree_io_error_cleanup` empties the
lists and leaves the cached counter node as it is. -/
def State.ioErrorCleanup (s : State threads) (t : Fin threads) : State threads :=
  { s with pending := update s.pending t .none }

/-- A crash, and `loadpersistent` after it: the counter found on flash plus one
interval is the new counter, and is written at once. -/
def State.loadpersistent (s : State threads) : State threads :=
  { s with
    counter := s.durable + META_COUNTER_SAVE_INTERVAL
    cached := s.durable + META_COUNTER_SAVE_INTERVAL
    durable := s.durable + META_COUNTER_SAVE_INTERVAL
    pending := fun _ => .none }

inductive Action (threads : ℕ) where
  | getNewNode (t : Fin threads)
  | flush (t : Fin threads)
  | failedFlush (t : Fin threads)
  /-- The unreferenced counter node leaves the cache and is read again. -/
  | evict
  | crash

/-- One action. A listed counter node is referenced, so it is not evicted. -/
def step (p : Partition) (s : State threads) : Action threads → Option (State threads)
  | .getNewNode t => some (s.getNewNode p t)
  | .flush t => some (s.flush t)
  | .failedFlush t => some (s.ioErrorCleanup t)
  | .evict =>
    if ∀ t, (s.pending t).counterNode = false then some { s with cached := s.durable } else none
  | .crash => some s.loadpersistent

/-- Node ids are safe: the next id has never been written, and every written id
is below the one recovery would resume at. -/
structure State.Fresh (p : Partition) (s : State threads) : Prop where
  unwritten : s.nextId p ∉ s.flushed
  belowResume : ∀ id ∈ s.flushed, id < p.logicalId (s.durable + META_COUNTER_SAVE_INTERVAL)

/-- The condition under which ids stay unique: a flush that lists the counter
node does not fail, and no other thread's flush gets in before it. -/
def State.Sound (s : State threads) : Action threads → Prop
  | .failedFlush t => (s.pending t).counterNode = false
  | .flush t => (s.pending t).counterNode = false →
      ∀ other, (s.pending other).counterNode = false
  | _ => True

/-- The invariant of sound histories. -/
structure Inv (p : Partition) (s : State threads) : Prop where
  cachedLe : s.cached ≤ s.counter
  counterLt : s.counter < s.cached + META_COUNTER_SAVE_INTERVAL
  durableLe : s.durable ≤ s.cached
  listedWhenDirty : s.cached ≠ s.durable → ∃ t, (s.pending t).counterNode = true
  pendingBelow : ∀ t, ∀ id ∈ (s.pending t).nodes, id < s.nextId p
  flushedBelow : ∀ id ∈ s.flushed, id < s.nextId p
  flushedResume : ∀ id ∈ s.flushed, id < p.logicalId (s.durable + META_COUNTER_SAVE_INTERVAL)

theorem Partition.logicalId_le (p : Partition) {a b : ℕ} (le : a ≤ b) :
    p.logicalId a ≤ p.logicalId b :=
  Nat.add_le_add_right (Nat.mul_le_mul_right _ le) _

theorem inv_initial (p : Partition) : Inv p (State.initial : State threads) where
  cachedLe := le_rfl
  counterLt := (by decide : 1 < 1 + META_COUNTER_SAVE_INTERVAL)
  durableLe := le_rfl
  listedWhenDirty := fun dirty => absurd rfl dirty
  pendingBelow := by simp [initial, Pending.none]
  flushedBelow := by simp [initial]
  flushedResume := by simp [initial]

namespace Inv

variable {p : Partition} {s : State threads}

theorem lt_of_counter_le {id : ℕ} (below : id < s.nextId p) {counter : ℕ}
    (le : s.counter ≤ counter) : id < p.logicalId counter :=
  lt_of_lt_of_le below (p.logicalId_le le)

section

variable (inv : Inv p s)

include inv

theorem getNewNode (t : Fin threads) : Inv p (s.getNewNode p t) := by
  have step : ∀ {id}, id < s.nextId p → id < p.logicalId (s.counter + 1) := fun below =>
    lt_of_counter_le below (Nat.le_succ _)
  have own : s.nextId p < p.logicalId (s.counter + 1) := p.logicalId_lt_iff.mpr (lt_add_one _)
  -- whichever branch `savepersistent` takes, only the flag of `t` differs in its lists
  have nodes : ∀ (flag : Bool) (other : Fin threads), ∀ id ∈ (update s.pending t
      ⟨s.nextId p :: (s.pending t).nodes, flag⟩ other).nodes, id < p.logicalId (s.counter + 1) := by
    intro flag other id mem
    rw [update_apply] at mem
    split at mem
    · rcases mem_cons.mp mem with rfl | old
      · exact own
      · exact step (inv.pendingBelow t id old)
    · exact step (inv.pendingBelow other id mem)
  unfold State.getNewNode State.savepersistent
  by_cases due : META_COUNTER_SAVE_INTERVAL ≤ s.counter + 1 - s.cached
  · simp only [due, if_true, update_self, update_idem]
    refine ⟨le_rfl, Nat.lt_add_of_pos_right (by decide), ?_, ?_, nodes true,
      fun id mem => step (inv.flushedBelow id mem), inv.flushedResume⟩
    · exact le_trans inv.durableLe (Nat.le_succ_of_le inv.cachedLe)
    · exact fun _ => ⟨t, by simp⟩
  · simp only [due, if_false]
    refine ⟨Nat.le_succ_of_le inv.cachedLe, ?_, inv.durableLe, ?_, nodes _,
      fun id mem => step (inv.flushedBelow id mem), inv.flushedResume⟩
    · have := inv.cachedLe
      change s.counter + 1 < s.cached + META_COUNTER_SAVE_INTERVAL
      omega
    · intro dirty
      obtain ⟨lister, listed⟩ := inv.listedWhenDirty dirty
      refine ⟨lister, ?_⟩
      dsimp only
      rw [update_apply]
      split
      · rename_i same
        exact same ▸ listed
      · exact listed

/-- Emptying the lists of one thread keeps the other threads' nodes below the next id. -/
theorem pendingBelow_clear (t other : Fin threads) :
    ∀ id ∈ (update s.pending t .none other).nodes, id < s.nextId p := by
  intro id mem
  rw [update_apply] at mem
  split at mem
  · simp [Pending.none] at mem
  · exact inv.pendingBelow other id mem

theorem flush {t : Fin threads} (sound : s.Sound (.flush t)) : Inv p (s.flush t) := by
  have durable : (s.flush t).durable = s.cached := by
    by_cases listed : (s.pending t).counterNode = true
    · simp [State.flush, listed]
    · simp only [State.flush, listed]
      rw [Bool.not_eq_true] at listed
      by_contra dirty
      obtain ⟨lister, lists⟩ := inv.listedWhenDirty fun same => dirty same.symm
      simp [sound listed lister] at lists
  have resume : ∀ {id}, id < s.nextId p →
      id < p.logicalId (s.cached + META_COUNTER_SAVE_INTERVAL) := fun below =>
    lt_of_counter_le below (le_of_lt inv.counterLt)
  refine ⟨inv.cachedLe, inv.counterLt, le_of_eq durable, fun dirty => absurd durable.symm dirty,
    inv.pendingBelow_clear t, ?_, ?_⟩
  · exact forall_mem_append.mpr ⟨inv.pendingBelow t, inv.flushedBelow⟩
  · intro id mem
    rw [durable]
    rcases mem_append.mp mem with new | old
    · exact resume (inv.pendingBelow t id new)
    · exact resume (inv.flushedBelow id old)

theorem ioErrorCleanup {t : Fin threads}
    (unlisted : (s.pending t).counterNode = false) : Inv p (s.ioErrorCleanup t) where
  __ := inv
  listedWhenDirty := by
    intro dirty
    obtain ⟨lister, listed⟩ := inv.listedWhenDirty dirty
    have others : lister ≠ t := fun same => by simp [same, unlisted] at listed
    exact ⟨lister, by simpa [State.ioErrorCleanup, update_apply, others] using listed⟩
  pendingBelow := inv.pendingBelow_clear t

/-- With the counter node listed nowhere, the cache agrees with the flash. -/
theorem cached_eq_durable (unlisted : ∀ t, (s.pending t).counterNode = false) :
    s.cached = s.durable := by
  by_contra dirty
  obtain ⟨lister, listed⟩ := inv.listedWhenDirty dirty
  simp [unlisted lister] at listed

theorem loadpersistent : Inv p s.loadpersistent where
  cachedLe := le_rfl
  counterLt := Nat.lt_add_of_pos_right (by decide)
  durableLe := le_rfl
  listedWhenDirty := fun dirty => absurd rfl dirty
  pendingBelow := by simp [State.loadpersistent, Pending.none]
  flushedBelow := inv.flushedResume
  flushedResume := fun id mem => lt_of_lt_of_le (inv.flushedResume id mem)
    (p.logicalId_le (Nat.le_add_right _ _))

theorem fresh : s.Fresh p where
  unwritten := fun mem => lt_irrefl _ (inv.flushedBelow _ mem)
  belowResume := inv.flushedResume

end

end Inv

theorem inv_step {p : Partition} {s next : State threads} {action : Action threads}
    (inv : Inv p s) (sound : s.Sound action) (taken : step p s action = some next) :
    Inv p next := by
  cases action with
  | getNewNode t =>
    cases taken
    exact inv.getNewNode t
  | flush t =>
    cases taken
    exact inv.flush sound
  | failedFlush t =>
    cases taken
    exact inv.ioErrorCleanup sound
  | evict =>
    simp only [step] at taken
    split at taken
    · rename_i unlisted
      have same := inv.cached_eq_durable unlisted
      cases taken
      obtain ⟨counter, cached, durable, pending, flushed⟩ := s
      dsimp only at same
      subst same
      exact inv
    · cases taken
  | crash =>
    cases taken
    exact inv.loadpersistent

/-- Along every sound history, no id that has reached flash is handed out again. -/
theorem getNewNode_fresh (p : Partition) {actions : List (Action threads)} {s : State threads}
    (sound : Admitted (step p) State.Sound State.initial actions)
    (reached : run (step p) State.initial actions = some s) : s.Fresh p :=
  (run_induction inv_step (inv_initial p) sound reached).fresh

/-- A history that saves the counter, flushes, crashes and allocates again is sound. -/
def oneNode : List (Action 1) := [.getNewNode 0, .flush 0, .evict, .crash, .getNewNode 0, .flush 0]

/-- A container with a single partition. -/
def Partition.single : Partition := ⟨1, 0, by decide⟩

theorem oneNode_fresh :
    ∃ s, run (step .single) State.initial oneNode = some s ∧ s.flushed = [100001, 1] ∧
      s.Fresh .single := by
  refine ⟨_, rfl, rfl, @getNewNode_fresh 1 .single oneNode _ ?_ rfl⟩
  simp [Admitted, oneNode, step, State.Sound, initial, flush, getNewNode,
    savepersistent, loadpersistent, Pending.none, META_COUNTER_SAVE_INTERVAL]

/-- `n` allocations of one thread, each flushed at once. -/
def allocations (n : ℕ) : List (Action 1) :=
  (replicate n [.getNewNode 0, .flush 0]).flatten

/-- As long as the next save is not due, they only move the counter and add ids. -/
theorem run_allocations (p : Partition) (n : ℕ) (rest : List (Action 1)) (s : State 1)
    (empty : s.pending = fun _ => .none) (clean : s.cached = s.durable)
    (room : s.counter + n - s.cached < META_COUNTER_SAVE_INTERVAL) :
    ∃ flushed, run (step p) s (allocations n ++ rest) =
      run (step p) { s with counter := s.counter + n, flushed := flushed } rest := by
  induction n generalizing s with
  | zero => exact ⟨s.flushed, rfl⟩
  | succ n ih =>
    have notDue : ¬ META_COUNTER_SAVE_INTERVAL ≤ s.counter + 1 - s.cached := by omega
    have once : (s.getNewNode p 0).flush 0 =
        { s with counter := s.counter + 1, flushed := s.nextId p :: s.flushed } := by
      simp only [getNewNode, savepersistent, notDue, if_false, flush, empty,
        update_idem, update_self, Pending.none, Bool.false_eq_true,
        cons_append, nil_append]
      congr 1
      exact update_eq_self 0 _
    obtain ⟨flushed, same⟩ := ih { s with
      counter := s.counter + 1, flushed := s.nextId p :: s.flushed } empty clean
      (by dsimp only; omega)
    refine ⟨flushed, ?_⟩
    change run (step p) ((s.getNewNode p 0).flush 0) (allocations n ++ rest) = _
    rw [once, same]
    simp [add_assoc, add_comm 1 n]

/-- The flush of the allocation that lists the counter node fails, one more node
is written, and the store crashes. -/
def failedSave : List (Action 1) := [.getNewNode 0, .failedFlush 0, .getNewNode 0, .flush 0, .crash]

/-- The node written last lies at the counter from which recovery resumes. -/
theorem run_failedSave (p : Partition) (s : State 1) (empty : s.pending = fun _ => .none)
    (clean : s.cached = s.durable) (due : s.counter + 1 = s.cached + META_COUNTER_SAVE_INTERVAL) :
    run (step p) s failedSave = some
      { s.loadpersistent with flushed := p.logicalId (s.counter + 1) :: s.flushed } := by
  have isDue : META_COUNTER_SAVE_INTERVAL ≤ s.counter + 1 - s.cached := by omega
  have notDue : ¬ META_COUNTER_SAVE_INTERVAL ≤ s.counter + 1 + 1 - (s.counter + 1) := by
    unfold META_COUNTER_SAVE_INTERVAL
    omega
  simp only [failedSave, run_cons, run_nil, step, Option.bind_some, getNewNode,
    savepersistent, ioErrorCleanup, flush, loadpersistent, nextId,
    isDue, notDue, if_true, if_false, empty, update_self, update_idem,
    Pending.none, Bool.false_eq_true, cons_append, nil_append]

/-- After the crash the allocator hands out the id of the node written last. -/
theorem getNewNode_reuses_after_failed_save :
    ∃ s, run (step .single) State.initial
        (allocations (META_COUNTER_SAVE_INTERVAL - 1) ++ failedSave) = some s ∧
      s.nextId .single ∈ s.flushed ∧ ¬ s.Fresh .single := by
  have positive : 0 < META_COUNTER_SAVE_INTERVAL := by decide
  obtain ⟨flushed, same⟩ := run_allocations .single (META_COUNTER_SAVE_INTERVAL - 1) failedSave
    initial rfl rfl (by dsimp only [initial]; omega)
  have due : 1 + (META_COUNTER_SAVE_INTERVAL - 1) + 1 = 1 + META_COUNTER_SAVE_INTERVAL := by omega
  rw [run_failedSave .single _ rfl rfl due] at same
  refine ⟨_, same, ?mem, fun fresh => fresh.unwritten ?mem⟩
  dsimp only [nextId, loadpersistent, initial]
  exact mem_cons_self

end Zetascale.LogicalId
