import Zetascale.Lib.Machine
import Zetascale.Replication.KeyLockSteps

/-!
# Callers of the key lock container

A world is a container together with what its callers know: the handles they
have been given and not returned, and the history of modifying holds and recovery
gets. The history does not look at the container. It records what the callers
see: a status of success, a callback that is applied, a get that is returned.
-/

namespace Zetascale.Replication

open Overlap

universe u

/-- A lock that a caller has been granted and has not released. -/
structure Handle (κ : Type u) where
  address : ℕ
  key : κ
  lockMode : RklMode
deriving DecidableEq

/-- The container, the handles in the hands of callers, and what has happened. -/
structure World (κ : Type u) where
  container : Container κ
  handles : List (Handle κ)
  history : List (Event κ ℕ)

/-- The calls, each with what its environment decides. -/
inductive Call (κ : Type u) where
  | lock (key : κ) (lockMode : RklMode) (cb : ℕ) (waiterAllocated : Bool)
  | unlock (address : ℕ)
  | startGet (allocated : Bool)
  | getComplete (address : ℕ)

variable {κ : Type u}

/-- The container has changed, and the callers have not heard of it yet. -/
def World.become (world : World κ) (container : Container κ) : World κ :=
  { world with container := container }

/-- A caller is granted a lock. -/
def World.record (world : World κ) (address : ℕ) (key : κ) (lockMode : RklMode) : World κ :=
  { world with
    handles := ⟨address, key, lockMode⟩ :: world.handles
    history := if lockMode.modifying then .granted key :: world.history else world.history }

/-- Several callers are granted a lock. -/
def World.recordAll (world : World κ) (address : ℕ) (key : κ) (waiters : List KeyLockWait) :
    World κ :=
  waiters.foldl (fun current waiter => current.record address key waiter.lockMode) world

/-- The number of modifying holders of a key. -/
def modifyingHolders [DecidableEq κ] (world : World κ) (key : κ) : ℕ :=
  world.handles.countP fun handle => handle.key = key && handle.lockMode.modifying

/-- The reservations of a key: those of its entry, if it has one. -/
def reservations (container : Container κ) (key : κ) : ℕ :=
  ((container.hash key).bind container.heap).elim 0 (·.reserveCount)

variable [DecidableEq κ]

/-- A caller returns a handle. -/
def World.returned (world : World κ) (handle : Handle κ) : World κ :=
  { world with
    handles := world.handles.erase handle
    history :=
      if handle.lockMode.modifying then .released handle.key :: world.history else world.history }

/-- One call. -/
def step (world : World κ) : Call κ → Option (World κ)
  | .lock key lockMode cb waiterAllocated =>
    (rklcLock world.container key lockMode cb waiterAllocated).map fun outcome =>
      let after := world.become outcome.container
      if outcome.status = some .success then after.record outcome.address key lockMode else after
  | .unlock address =>
    (world.handles.find? (·.address = address)).bind fun handle =>
      (rklUnlock world.container address).map fun (container, granted) =>
        ((world.become container).returned handle).recordAll address handle.key granted
  | .startGet allocated =>
    (rklcStartGet world.container allocated).map fun (container, get) =>
      { world with
        container := container
        history := get.elim world.history (.started · :: world.history) }
  | .getComplete address =>
    (rklcGetComplete world.container address).map fun container =>
      { world with container := container, history := .completed address :: world.history }

/-- What a caller has to see to: only granted locks are released and only running gets completed. A
key is not recovered twice at a time, except where the replication type allows it. -/
def Contract (world : World κ) : Call κ → Prop
  | .lock key lockMode _ _ => lockMode ≠ .none ∧
      (world.container.replicationType ≠ .v12Way → lockMode = .recovery →
        ∀ handle ∈ world.handles, handle.key = key → handle.lockMode ≠ .recovery)
  | .unlock address => ∃ handle ∈ world.handles, handle.address = address
  | .startGet _ => True
  | .getComplete address => address ∈ unfinished world.history

instance decidableContract (world : World κ) (call : Call κ) : Decidable (Contract world call) := by
  cases call <;> unfold Contract <;> infer_instance

/-- A container that has just been allocated. -/
def initial (replicationType : SdfReplication) : World κ where
  container := replicatorKeyLockContainerAlloc replicationType
  handles := []
  history := []

/-- The handles agree with the entries. -/
structure Held (container : Container κ) (handles : List (Handle κ)) : Prop where
  live : ∀ handle ∈ handles, ∃ lock, container.heap handle.address = some lock ∧
    lock.key = handle.key ∧ lock.lockMode = handle.lockMode
  count : ∀ {address lock}, container.heap address = some lock →
    handles.countP (·.address = address) = lock.lockCount

omit [DecidableEq κ]

variable {container after : Container κ} {handles : List (Handle κ)} {address : ℕ}
  {lock lock' : KeyLock κ}

variable (held : Held container handles)

include held

theorem Held.unheld (found : container.heap address = some lock)
    (free : lock.lockCount = 0) : ∀ handle ∈ handles, handle.address ≠ address := by
  intro handle among same
  have none := held.count found
  rw [free, List.countP_eq_zero] at none
  exact none handle among (by simp [same])

theorem Held.entry {handle : Handle κ} (among : handle ∈ handles)
    (found : container.heap handle.address = some lock) :
    handle.key = lock.key ∧ handle.lockMode = lock.lockMode ∧ lock.lockCount ≠ 0 := by
  obtain ⟨entry, there, keyed, moded⟩ := held.live handle among
  cases found.symm.trans there
  exact ⟨keyed.symm, moded.symm, fun free => held.unheld found free handle among rfl⟩

/-- One more caller holds the entry. -/
theorem Held.grant (rewritten : Rewritten container after address lock lock')
    (mode : lock.lockCount ≠ 0 → lock'.lockMode = lock.lockMode)
    (count : lock'.lockCount = lock.lockCount + 1) :
    Held after (⟨address, lock.key, lock'.lockMode⟩ :: handles) where
  live handle among := by
    rcases List.mem_cons.mp among with new | old
    · exact ⟨lock', new ▸ rewritten.here, by rw [new, rewritten.key], by rw [new]⟩
    · by_cases same : handle.address = address
      · subst same
        obtain ⟨keyed, moded, busy⟩ := held.entry old rewritten.found
        exact ⟨lock', rewritten.here, rewritten.key.trans keyed.symm, (mode busy).trans moded.symm⟩
      · rw [rewritten.elsewhere same]
        exact held.live handle old
  count {other entry} there := by
    rcases rewritten.newOrOld there with ⟨rfl, rfl⟩ | ⟨ne, there⟩
    · rw [List.countP_cons_of_pos (by simp), held.count rewritten.found, count]
    · rw [List.countP_cons_of_neg (by simpa using Ne.symm ne)]
      exact held.count there

/-- One caller less holds the entry. -/
theorem Held.giveBack [DecidableEq κ]
    {handle : Handle κ} (rewritten : Rewritten container after handle.address lock lock')
    (mode : lock'.lockCount ≠ 0 → lock'.lockMode = lock.lockMode)
    (count : lock'.lockCount = lock.lockCount - 1) (among : handle ∈ handles) :
    Held after (handles.erase handle) := by
  have counted : ∀ {other entry}, after.heap other = some entry →
      (handles.erase handle).countP (·.address = other) = entry.lockCount := by
    intro other entry there
    rw [List.countP_erase]
    rcases rewritten.newOrOld there with ⟨rfl, rfl⟩ | ⟨ne, there⟩
    · rw [held.count rewritten.found, count, if_pos ⟨among, by simp⟩]
    · rw [held.count there, if_neg (by simp [Ne.symm ne])]
      rfl
  refine ⟨fun other left => ?_, counted⟩
  have before := List.mem_of_mem_erase left
  by_cases same : other.address = handle.address
  · rw [← same] at rewritten
    obtain ⟨keyed, moded, _⟩ := held.entry before rewritten.found
    have busy : lock'.lockCount ≠ 0 := by
      rw [← counted rewritten.here, Ne, List.countP_eq_zero]
      exact fun none => none other left (by simp)
    exact ⟨lock', rewritten.here, rewritten.key.trans keyed.symm, (mode busy).trans moded.symm⟩
  · rw [rewritten.elsewhere same]
    exact held.live other before

/-- The holders of the entries have not changed. -/
theorem Held.same (back : ∀ {address lock'}, after.heap address = some lock' → ∃ lock,
      container.heap address = some lock ∧ lock'.key = lock.key ∧
        lock'.lockMode = lock.lockMode ∧ lock'.lockCount = lock.lockCount)
    (forth : ∀ {address lock}, container.heap address = some lock → lock.lockCount ≠ 0 →
      ∃ lock', after.heap address = some lock') : Held after handles where
  live handle among := by
    obtain ⟨lock, found, keyed, moded⟩ := held.live handle among
    have busy : lock.lockCount ≠ 0 := fun free => held.unheld found free handle among rfl
    obtain ⟨lock', here⟩ := forth found busy
    obtain ⟨entry, there, key, mode, _⟩ := back here
    cases found.symm.trans there
    exact ⟨lock', here, key.trans keyed, mode.trans moded⟩
  count {address lock'} here := by
    obtain ⟨lock, found, _, _, count⟩ := back here
    rw [held.count found, count]

end Zetascale.Replication
