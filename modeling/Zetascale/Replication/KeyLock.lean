import Mathlib

/-!
# The replicator's key locks

The lock container of `key_lock.c`. Locks on keys are shared, exclusive or taken
by recovery. A recovery get does not know its keys in advance. It therefore
reserves every key that is modified while it runs, and a key lock entry stays
until the gets that overlap it have completed. Every call works under the
container's write lock, so a call is one step. Entries and gets are referred to
by their allocation number, and a number is never used twice: to follow a
pointer to a freed entry is a fault. A failed `plat_assert` is a fault as well.

The reference count of the container is left out. It decides only when
`rklc_free` lets go of the container as a whole.
-/

namespace Zetascale.Replication

open Function

universe u

/-- `SDF_replication_t`. -/
inductive SdfReplication where
  | none
  | simple
  | metaSuperNode
  | metaExternalAuthority
  | metaConsensus
  | v12Way
  | v1NPlus1
  | consensus
  | invalid
deriving DecidableEq

/-- `enum rkl_mode`. -/
inductive RklMode where
  | none
  | shared
  | exclusive
  | recovery
deriving DecidableEq

/-- "A modifying lock is mode `RKL_MODE_EXCLUSIVE` or `RKL_MODE_RECOVERY`." -/
def RklMode.modifying : RklMode → Bool
  | .none => false
  | .shared => false
  | .exclusive => true
  | .recovery => true

/-- The statuses that the callback of `rklc_lock` is applied to. -/
inductive LockStatus where
  | success
  | lockReserved
  | outOfMem
deriving DecidableEq

/-- `CR_SHARD_KEY_LOCK_LTIME_INVALID`. -/
def LTIME_INVALID : ℤ := -1

/-- `struct replicator_key_lock_wait`; a callback is named by a number. -/
structure KeyLockWait where
  lockMode : RklMode
  grantedCb : ℕ

/-- `struct replicator_key_lock`. -/
@[ext]
structure KeyLock (κ : Type u) where
  key : κ
  lockMode : RklMode
  lockCount : ℕ
  reserveCount : ℕ
  currentModifyingGrantLtime : ℤ
  firstModifyingGrantLtime : ℤ
  lastModifyingReleaseLtime : ℤ
  waitList : List KeyLockWait

/-- `struct rklc_get`, with its own address. -/
structure RklcGet where
  address : ℕ
  startLtime : ℤ
  oldestOverlappingModify : Option ℕ
deriving DecidableEq

/-- `struct replicator_key_lock_container`. -/
structure Container (κ : Type u) where
  replicationType : SdfReplication
  hash : κ → Option ℕ
  heap : ℕ → Option (KeyLock κ)
  nextAddress : ℕ
  currentLtime : ℤ
  allList : List ℕ
  allListCount : ℕ
  modifyList : List ℕ
  runningModifyList : List ℕ
  runningModifyListCount : ℕ
  getList : List RklcGet
  getCount : ℕ

variable {κ : Type u} [DecidableEq κ]

/-- `replicator_key_lock_container_alloc`. -/
def replicatorKeyLockContainerAlloc (replicationType : SdfReplication) : Container κ where
  replicationType := replicationType
  hash _ := none
  heap _ := none
  nextAddress := 0
  currentLtime := 0
  allList := []
  allListCount := 0
  modifyList := []
  runningModifyList := []
  runningModifyListCount := 0
  getList := []
  getCount := 0

/-- `rklc_get_lock_count`. -/
def rklcGetLockCount (container : Container κ) : ℕ :=
  container.allListCount

/-- Write an entry back. -/
def Container.put (container : Container κ) (address : ℕ) (lock : KeyLock κ) : Container κ :=
  { container with heap := update container.heap address (some lock) }

/-- The loop of `rkl_granted_locked`: a get that had no overlapping modify yet has one now. -/
def RklcGet.overlap (address : ℕ) (get : RklcGet) : RklcGet :=
  if get.oldestOverlappingModify = none then
    { get with oldestOverlappingModify := some address }
  else get

/-- The entry after a modifying grant. -/
def KeyLock.granted (now : ℤ) (getCount : ℕ) (lock : KeyLock κ) : KeyLock κ :=
  { lock with
    currentModifyingGrantLtime := now
    firstModifyingGrantLtime :=
      if lock.firstModifyingGrantLtime = LTIME_INVALID then now
      else lock.firstModifyingGrantLtime
    -- "Preserve the reserve count from a previous acquisition"
    reserveCount := (if lock.reserveCount = 0 then getCount else lock.reserveCount) + 1 }

/-- The modifying cases of `rkl_granted_locked`. -/
def grantModifying (container : Container κ) (address : ℕ) (lock : KeyLock κ) : Container κ :=
  { container with
    currentLtime := container.currentLtime + 1
    heap := update container.heap address
      (some (lock.granted container.currentLtime container.getCount))
    modifyList :=
      if lock.firstModifyingGrantLtime = LTIME_INVALID then container.modifyList ++ [address]
      else container.modifyList
    runningModifyList := container.runningModifyList ++ [address]
    runningModifyListCount := container.runningModifyListCount + 1
    getList := container.getList.map (RklcGet.overlap address) }

/-- `rkl_granted_locked`. -/
def rklGrantedLocked (container : Container κ) (address : ℕ) : Option (Container κ) :=
  (container.heap address).bind fun lock =>
    match lock.lockMode with
    | .exclusive => some (grantModifying container address lock)
    | .recovery => some (grantModifying container address lock)
    | .shared => some container
    | .none => none

/-- `rkl_reserve_dec_locked`. -/
def rklReserveDecLocked (container : Container κ) (address : ℕ) : Option (Container κ) :=
  (container.heap address).bind fun lock =>
    if lock.reserveCount = 0 then none
    else if lock.reserveCount - 1 = 0 ∧ lock.firstModifyingGrantLtime ≠ LTIME_INVALID then
      if lock.lastModifyingReleaseLtime = LTIME_INVALID then none
      else some { container with
        heap := update container.heap address (some { lock with
          reserveCount := 0
          currentModifyingGrantLtime := LTIME_INVALID
          firstModifyingGrantLtime := LTIME_INVALID
          lastModifyingReleaseLtime := LTIME_INVALID })
        modifyList := container.modifyList.erase address }
    else some (container.put address { lock with reserveCount := lock.reserveCount - 1 })

/-- `rkl_check_free_locked`. -/
def rklCheckFreeLocked (container : Container κ) (address : ℕ) : Option (Container κ) :=
  (container.heap address).bind fun lock =>
    if lock.lockMode.modifying ∧ lock.reserveCount = 0 then none
    else if lock.lockCount = 0 ∧ lock.reserveCount = 0 ∧ lock.waitList = [] then
      if lock.firstModifyingGrantLtime ≠ LTIME_INVALID ∧
          lock.lastModifyingReleaseLtime = LTIME_INVALID then none
      else if container.hash lock.key ≠ some address then none
      else some { container with
        heap := update container.heap address none
        hash := update container.hash lock.key none
        modifyList :=
          if lock.firstModifyingGrantLtime ≠ LTIME_INVALID then container.modifyList.erase address
          else container.modifyList
        allList := container.allList.erase address
        allListCount := container.allListCount - 1 }
    else some container

/-- The entry that `rklc_lock` allocates for a key that has none. -/
def newKeyLock (key : κ) : KeyLock κ where
  key := key
  lockMode := .none
  lockCount := 0
  reserveCount := 0
  currentModifyingGrantLtime := LTIME_INVALID
  firstModifyingGrantLtime := LTIME_INVALID
  lastModifyingReleaseLtime := LTIME_INVALID
  waitList := []

/-- The first part of `rklc_lock`: the entry of the key, a new one if there is none. -/
def findOrAllocate (container : Container κ) (key : κ) : Container κ × ℕ :=
  match container.hash key with
  | some address => (container, address)
  | none =>
    let address := container.nextAddress
    ({ container with
      heap := update container.heap address (some (newKeyLock key))
      hash := update container.hash key (some address)
      nextAddress := address + 1
      allList := container.allList ++ [address]
      allListCount := container.allListCount + 1 }, address)

/-- What `rklc_lock` asserts of the entry before it decides. -/
def KeyLock.asserted (replicationType : SdfReplication) (lock : KeyLock κ)
    (lockMode : RklMode) : Bool :=
  (lock.lockMode ≠ .none ↔ lock.lockCount ≠ 0) ∧
  (lock.lockMode = .exclusive → lock.lockCount = 1) ∧
  (lock.lockMode = .exclusive → 0 < lock.reserveCount) ∧
  (replicationType ≠ .v12Way ∧ lock.lockMode = .recovery → lockMode ≠ .recovery)

/-- What a call of `rklc_lock` leaves behind: the entry whose address the callback gets, and the
status it is applied to at once. There is none where the request waits. -/
structure LockOutcome (κ : Type u) where
  container : Container κ
  address : ℕ
  status : Option LockStatus

/-- The decision of `rklc_lock` about the entry it has found. -/
def decideLock (container : Container κ) (address : ℕ) (lock : KeyLock κ) (lockMode : RklMode)
    (cb : ℕ) (waiterAllocated : Bool) : Option (LockOutcome κ) :=
  if lockMode = .recovery ∧ 0 < lock.reserveCount then
    some ⟨container, address, some .lockReserved⟩
  else if lock.lockCount = 0 then
    (rklGrantedLocked (container.put address { lock with lockMode := lockMode, lockCount := 1 })
      address).map fun granted => ⟨granted, address, some .success⟩
  else if lock.lockMode = .shared ∧ lockMode = .shared then
    (rklGrantedLocked (container.put address { lock with lockCount := lock.lockCount + 1 })
      address).map fun granted => ⟨granted, address, some .success⟩
  else if ¬ waiterAllocated then some ⟨container, address, some .outOfMem⟩
  else some ⟨container.put address { lock with waitList := lock.waitList ++ [⟨lockMode, cb⟩] },
    address, none⟩

/-- `rklc_lock`. The caller's callback is `cb`; `waiterAllocated` says whether the allocation of a
wait list entry succeeds. -/
def rklcLock (container : Container κ) (key : κ) (lockMode : RklMode) (cb : ℕ)
    (waiterAllocated : Bool) : Option (LockOutcome κ) :=
  if lockMode = .none then none
  -- an entry found in the hash is locked or reserved
  else if ((container.hash key).bind container.heap).any
      (fun lock => lock.lockMode = .none ∧ lock.reserveCount = 0) then none
  else
    let found := findOrAllocate container key
    (found.1.heap found.2).bind fun lock =>
      if ¬ lock.asserted container.replicationType lockMode then none
      else decideLock found.1 found.2 lock lockMode cb waiterAllocated

/-- The loop of `rkl_unlock` over the wait list; the waiters that are granted the lock. -/
def grantWaiters (address : ℕ) :
    List KeyLockWait → Container κ → Option (Container κ × List KeyLockWait)
  | [], container => some (container, [])
  | waiter :: rest, container =>
    (container.heap address).bind fun lock =>
      if lock.lockCount = 0 then
        (rklGrantedLocked (container.put address
          { lock with lockMode := waiter.lockMode, lockCount := 1, waitList := rest })
          address).bind fun granted =>
            (grantWaiters address rest granted).map fun (final, grants) => (final, waiter :: grants)
      else if lock.lockMode = .shared ∧ waiter.lockMode = .shared then
        (rklGrantedLocked (container.put address
          { lock with lockCount := lock.lockCount + 1, waitList := rest })
          address).bind fun granted =>
            (grantWaiters address rest granted).map fun (final, grants) => (final, waiter :: grants)
      else some (container, [])

/-- The modifying case of the `switch` in `rkl_unlock`. -/
def releaseModifying (container : Container κ) (address : ℕ) (lock : KeyLock κ) :
    Option (Container κ) :=
  if container.runningModifyList = [] ∨ container.runningModifyListCount = 0 then none
  else
    let running := container.runningModifyList.erase address
    let count := container.runningModifyListCount - 1
    if ¬ (running = [] ↔ count = 0) then none
    else rklReserveDecLocked { container with
        runningModifyList := running
        runningModifyListCount := count
        currentLtime := container.currentLtime + 1
        heap := update container.heap address
          (some { lock with lastModifyingReleaseLtime := container.currentLtime }) } address

/-- `rkl_unlock`; also the waiters whose callbacks it applies. -/
def rklUnlock (container : Container κ) (address : ℕ) :
    Option (Container κ × List KeyLockWait) :=
  (container.heap address).bind fun lock =>
    if lock.lockMode = .none ∨ lock.lockCount = 0 ∨
        (1 < lock.lockCount ∧ lock.lockMode ≠ .shared) then none
    else
      let less := { lock with lockCount := lock.lockCount - 1 }
      (if lock.lockMode.modifying then releaseModifying container address less
        else some (container.put address less)).bind fun container =>
      (container.heap address).bind fun lock =>
        let lock := if lock.lockCount = 0 then { lock with lockMode := .none } else lock
        let container := container.put address lock
        if lock.lockCount = 0 ∧ lock.waitList = [] then
          (rklCheckFreeLocked container address).map fun freed => (freed, [])
        else grantWaiters address lock.waitList container

/-- The loop of `rklc_start_get`: one more reservation on every lock of the list. -/
def reserveAll : List ℕ → (ℕ → Option (KeyLock κ)) → Option (ℕ → Option (KeyLock κ))
  | [], heap => some heap
  | address :: rest, heap =>
    (heap address).bind fun lock =>
      reserveAll rest (update heap address
        (some { lock with reserveCount := lock.reserveCount + 1 }))

/-- `rklc_start_get`; no get is returned where its allocation fails. -/
def rklcStartGet (container : Container κ) (allocated : Bool) :
    Option (Container κ × Option ℕ) :=
  if ¬ allocated then some (container, none)
  else
    (reserveAll container.runningModifyList container.heap).map fun heap =>
      ({ container with
        currentLtime := container.currentLtime + 1
        heap := heap
        nextAddress := container.nextAddress + 1
        getList := container.getList ++ [{
          address := container.nextAddress
          startLtime := container.currentLtime
          oldestOverlappingModify := container.runningModifyList.head? }]
        getCount := container.getCount + 1 }, some container.nextAddress)

/-- The test that `rklc_get_complete` makes of a lock. -/
def RklcGet.overlaps (get : RklcGet) (endLtime : ℤ) (lock : KeyLock κ) : Bool :=
  (lock.lastModifyingReleaseLtime = LTIME_INVALID ∨
    get.startLtime < lock.lastModifyingReleaseLtime) ∧
  lock.firstModifyingGrantLtime < endLtime

/-- The loop of `rklc_get_complete`. Only the lock at hand is taken off the list, and its successor
is looked up before that, so the walk goes over the list as it was. -/
def completeWalk (get : RklcGet) (endLtime : ℤ) :
    List ℕ → Container κ → Option (Container κ)
  | [], container => some container
  | address :: rest, container =>
    (container.heap address).bind fun lock =>
      (if get.overlaps endLtime lock then
        (rklReserveDecLocked container address).bind (rklCheckFreeLocked · address)
      else some container).bind (completeWalk get endLtime rest)

/-- The part of the modify list that starts with the given lock. The pointer is followed, so it is
a fault if the lock is not on the list. -/
def modifyListFrom (modifyList : List ℕ) : Option ℕ → Option (List ℕ)
  | none => some []
  | some oldest => if oldest ∈ modifyList then some (modifyList.dropWhile (· ≠ oldest)) else none

/-- `rklc_get_complete`. -/
def rklcGetComplete (container : Container κ) (address : ℕ) : Option (Container κ) :=
  (container.getList.find? (·.address = address)).bind fun get =>
    if container.getCount = 0 then none
    else
      (modifyListFrom container.modifyList get.oldestOverlappingModify).bind fun locks =>
        (completeWalk get container.currentLtime locks
          { container with currentLtime := container.currentLtime + 1 }).map fun walked =>
            { walked with
              getList := walked.getList.erase get
              getCount := walked.getCount - 1 }

end Zetascale.Replication
