import Zetascale.Replication.KeyLockWorld

/-!
# Reservations of key locks

An entry's reservations are to be exact: one for its modifying holder and one
for every unfinished get that overlapped a modifying hold of the key. They are,
as long as no get is left out when a reserved key is granted again, and as long
as a completing get finds every key that it overlapped. Both can fail only after
a key has been granted to a modifier while gets still reserved it.
-/

namespace Zetascale.Replication

open Overlap List Option World

universe u

variable {κ : Type u} [DecidableEq κ]

/-- Everything agrees in a world, apart from entries that nothing needs. -/
structure Steady (world : World κ) : Prop where
  accounts : Accounts world.container world.container.getList (ledger world.history)
  counted : world.container.getCount = world.container.getList.length
  distinct : (unfinished world.history).Nodup
  unseen : ∀ span, world.container.nextAddress ≤ span → Unseen world.history span
  held : Held world.container world.handles

/-- All entries but one are needed. -/
def NeededBut (container : Container κ) (exempt : ℕ) : Prop :=
  ∀ {address lock}, address ≠ exempt → container.heap address = some lock → lock.Needed

/-- Everything agrees in a world, and all entries are needed. -/
structure Sound (world : World κ) : Prop extends Steady world where
  needed : AllNeeded world.container

theorem regular_ledger {history : List (Event κ ℕ)} (distinct : (unfinished history).Nodup) :
    Regular (ledger history) where
  spansNodup := distinct
  nodup _ := distinct.filter _
  isOpen _ _ among := (mem_overlapping.mp among).1
  full _ := pending_of_held

/-- An empty container. -/
theorem initial_sound (replicationType : SdfReplication) :
    Sound (initial replicationType : World κ) where
  accounts := by
    refine ⟨⟨?_, nofun, ?_, nodup_nil, rfl⟩, ⟨?_, nodup_nil, rfl, ?_, nodup_nil⟩, nofun,
      rfl, Int.le_refl 0, nofun, nofun, nofun, fun _ _ => ⟨rfl, rfl⟩⟩ <;>
      simp [initial, replicatorKeyLockContainerAlloc]
  counted := rfl
  distinct := nodup_nil
  unseen _ _ := ⟨not_mem_nil, fun _ => rfl⟩
  held := ⟨nofun, nofun⟩
  needed := nofun

variable {world : World κ} {address : ℕ} {lock : KeyLock κ}

theorem Steady.sound (steady : Steady world) (others : NeededBut world.container address)
    (here : ∀ lock, world.container.heap address = some lock → lock.Needed) : Sound world where
  toSteady := steady
  needed {other lock} found := by
    by_cases same : other = address
    · exact here lock (same ▸ found)
    · exact others same found

theorem Steady.sound_of_needed (steady : Steady world) (others : NeededBut world.container address)
    (found : world.container.heap address = some lock) (needed : lock.Needed) : Sound world :=
  steady.sound others fun _ there => some.inj (found.symm.trans there) ▸ needed

omit [DecidableEq κ] in
theorem KeyLock.needed_of_busy (busy : lock.lockCount ≠ 0) : lock.Needed :=
  ⟨.inl busy, fun _ => busy⟩

variable {mode : RklMode}

theorem RklMode.eq_shared (proper : mode ≠ .none) (calm : ¬ mode.modifying) : mode = .shared := by
  cases mode with
  | none => cases proper rfl
  | shared => rfl
  | exclusive => cases calm rfl
  | recovery => cases calm rfl

variable {container : Container κ}

omit [DecidableEq κ] in
theorem rklGrantedLocked_modifying
    (modifying : mode.modifying) (found : container.heap address = some lock)
    (moded : lock.lockMode = mode) :
    rklGrantedLocked container address = some (grantModifying container address lock) := by
  rw [rklGrantedLocked, found, bind_some, moded]
  cases mode with
  | none => cases modifying
  | shared => cases modifying
  | exclusive => rfl
  | recovery => rfl

variable {waits : List KeyLockWait}

section

variable (steady : Steady world) (found : world.container.heap address = some lock)

include steady found

theorem Steady.grantedTo_held (idle : lock.lockMode = .none) :
    Held (grantedTo world.container address lock mode waits)
      (⟨address, lock.key, mode⟩ :: world.handles) := by
  have free : lock.lockCount = 0 := (steady.accounts.locks found).idle.mpr idle
  refine steady.held.grant (rewritten_grantedTo mode waits found) (fun busy => absurd free busy) ?_
  rw [free]
  rfl

/-- A modifier is granted an entry that nobody holds. -/
theorem Steady.grantModifying (idle : lock.lockMode = .none)
    (modifying : mode.modifying) (waiters : ∀ waiter ∈ waits, waiter.lockMode ≠ .none)
    (regrant : Regrant world.container.getList lock) :
    Steady ((world.become (grantedTo world.container address lock mode waits)).record
      address lock.key mode) := by
  have moved := steady.accounts.grant (regular_ledger steady.distinct) found steady.counted idle
    modifying waiters regrant
  have event : Fresh world.history (.granted lock.key) := trivial
  refine ⟨?_, ?_, ?_, ?_, steady.grantedTo_held found idle⟩
  · simp only [record, become, modifying, if_true]
    rw [ledger_cons steady.distinct event]
    exact moved
  · simpa [record, become, grantedTo, Replication.grantModifying, Container.put]
      using steady.counted
  · simp only [record, become, modifying, if_true]
    exact unfinished_cons_nodup steady.distinct event
  · intro span beyond
    simp only [record, become, modifying, if_true]
    exact (steady.unseen span beyond).cons (by simp)

/-- A reader is granted an entry that no modifier holds. -/
theorem Steady.grantShared (quiet : lock.lockMode ≠ .none → lock.lockMode = .shared)
    (waiters : ∀ waiter ∈ waits, waiter.lockMode ≠ .none) :
    Steady ((world.become (world.container.put address
        { lock with lockMode := .shared, lockCount := lock.lockCount + 1, waitList := waits })).record
      address lock.key .shared) := by
  have sound := steady.accounts.locks found
  have calm : lock.lockMode.modifying = false := by
    by_cases idle : lock.lockMode = .none
    · rw [idle]
      rfl
    · rw [quiet idle]
      rfl
  refine ⟨?_, steady.counted, steady.distinct, steady.unseen, ?_⟩
  · exact steady.accounts.put found calm.symm (by simp) nofun waiters
  · exact steady.held.grant (.put
      { lock with lockMode := .shared, lockCount := lock.lockCount + 1, waitList := waits } found rfl)
      (fun busy => (quiet fun idle => busy (sound.idle.mpr idle)).symm) rfl

end

/-- The lock count counts the modifying holders. -/
theorem Held.modifyingHolders_eq (held : Held world.container world.handles)
    (indexed : Indexed world.container) (found : world.container.heap address = some lock) :
    modifyingHolders world lock.key = if lock.lockMode.modifying then lock.lockCount else 0 := by
  have owner : ∀ handle ∈ world.handles, handle.key = lock.key ↔ handle.address = address := by
    intro handle among
    obtain ⟨entry, there, keyed, _⟩ := held.live handle among
    constructor
    · intro same
      exact indexed.keyInjective there found (keyed.trans same)
    · rintro rfl
      exact (held.entry among found).1
  have mode : ∀ handle ∈ world.handles, handle.address = address →
      handle.lockMode = lock.lockMode := by
    rintro handle among rfl
    exact (held.entry among found).2.1
  unfold modifyingHolders
  by_cases modifying : lock.lockMode.modifying
  · rw [if_pos modifying, ← held.count found]
    refine countP_congr fun handle among => ?_
    rw [Bool.and_eq_true, decide_eq_true_iff, decide_eq_true_iff, owner handle among]
    exact ⟨And.left, fun same => ⟨same, by rw [mode handle among same]; exact modifying⟩⟩
  · rw [if_neg modifying, countP_eq_zero]
    intro handle among both
    rw [Bool.and_eq_true, decide_eq_true_iff, owner handle among] at both
    rw [mode handle among both.1] at both
    exact modifying both.2

variable {key : κ}

theorem Held.modifyingHolders_eq_zero (held : Held world.container world.handles)
    (indexed : Indexed world.container) (unhashed : world.container.hash key = none) :
    modifyingHolders world key = 0 := by
  rw [modifyingHolders, countP_eq_zero]
  intro handle among both
  rw [Bool.and_eq_true, decide_eq_true_iff] at both
  obtain ⟨entry, there, keyed, _⟩ := held.live handle among
  rw [(indexed.hashed key _).mpr ⟨entry, there, keyed.trans both.1⟩] at unhashed
  cases unhashed

omit [DecidableEq κ] in
theorem reservations_of_found (indexed : Indexed container)
    (found : container.heap address = some lock) :
    reservations container lock.key = lock.reserveCount := by
  rw [reservations, (indexed.hashed lock.key address).mpr ⟨lock, found, rfl⟩, bind_some, found]
  rfl

/-- What is owed to a key: one reservation for its modifying holder and one for every unfinished get
that overlaps one of its modifying holds. -/
def owed (world : World κ) (key : κ) : ℕ :=
  modifyingHolders world key + (overlapping world.history key).length

/-- The reservations in a world are exact, and so is all that follows from them. -/
structure Exact (world : World κ) : Prop where
  single : ∀ key, modifyingHolders world key ≤ 1
  counts : ∀ key, reservations world.container key = owed world key
  answers : ∀ key cb waiterAllocated outcome,
    rklcLock world.container key .recovery cb waiterAllocated = some outcome →
      (outcome.status = some .lockReserved ↔ 0 < modifyingHolders world key ∨
        ∃ get ∈ unfinished world.history, overlapped world.history get key)
  kept : ∀ key, ∀ get ∈ unfinished world.history, overlapped world.history get key →
    ∃ address ∈ world.container.modifyList, world.container.hash key = some address ∧
      (world.container.heap address).isSome
  cleared : world.handles = [] → unfinished world.history = [] →
    rklcGetLockCount world.container = 0 ∧ ∀ key, world.container.hash key = none

omit [DecidableEq κ] in
theorem decideLock_reserved {cb : ℕ} {waiterAllocated : Bool} {outcome : LockOutcome κ}
    (taken : decideLock container address lock .recovery cb waiterAllocated = some outcome) :
    outcome.status = some .lockReserved ↔ 0 < lock.reserveCount := by
  rw [decideLock] at taken
  split at taken
  · next reserved =>
      rw [← some.inj taken]
      exact iff_of_true rfl reserved.2
  · next free =>
      have none : ¬ 0 < lock.reserveCount := fun reserved => free ⟨rfl, reserved⟩
      refine iff_of_false ?_ none
      split at taken
      · obtain ⟨granted, _, rfl⟩ := map_eq_some_iff.mp taken
        nofun
      · rw [if_neg fun both => nomatch both.2] at taken
        split at taken
        · rw [← some.inj taken]
          nofun
        · rw [← some.inj taken]
          nofun

/-- The reservations of a key are those of its entry. -/
theorem findOrAllocate_reservations
    (found : (findOrAllocate container key).1.heap (findOrAllocate container key).2 = some lock) :
    reservations container key = lock.reserveCount := by
  cases hashed : container.hash key with
  | none =>
    simp only [findOrAllocate, hashed, Function.update_self, some.injEq] at found
    rw [reservations, hashed, ← found]
    rfl
  | some address =>
    simp only [findOrAllocate, hashed] at found
    rw [reservations, hashed, bind_some, found]
    rfl

/-- `rklc_lock` for recovery is refused for a reservation just in case the key has one. -/
theorem lockReserved_iff {cb : ℕ} {waiterAllocated : Bool} {outcome : LockOutcome κ}
    (taken : rklcLock container key .recovery cb waiterAllocated = some outcome) :
    outcome.status = some .lockReserved ↔ 0 < reservations container key := by
  rw [rklcLock, if_neg nofun] at taken
  split at taken
  · cases taken
  · obtain ⟨lock, found, taken⟩ := bind_eq_some_iff.mp taken
    rw [findOrAllocate_reservations found]
    split at taken
    · cases taken
    · exact decideLock_reserved taken

/-- The reservations of a key are its modifying holder and what the ledger has pending for it. -/
theorem Accounts.reservations_eq {gets : List RklcGet} {book : Ledger κ ℕ}
    (accounts : Accounts world.container gets book) (held : Held world.container world.handles)
    (key : κ) :
    reservations world.container key = modifyingHolders world key + (book.pending key).length := by
  have indexed := accounts.indexed
  cases hashed : world.container.hash key with
  | none =>
    rw [held.modifyingHolders_eq_zero indexed hashed, reservations, hashed,
      (accounts.absent key hashed).2]
    rfl
  | some address =>
    obtain ⟨lock, found, rfl⟩ := (indexed.hashed key address).mp hashed
    have sound := accounts.locks found
    rw [reservations_of_found indexed found, held.modifyingHolders_eq indexed found,
      sound.reserved, sound.held]
    cases modifying : lock.lockMode.modifying with
    | true =>
      rw [if_pos rfl, sound.single modifying]
      rfl
    | false => rfl

/-- Reservations are what is owed. -/
theorem Steady.counts (steady : Steady world) (key : κ) :
    reservations world.container key = owed world key :=
  steady.accounts.reservations_eq steady.held key

/-- If the count is right after a modifying grant, then the grant has left out no get. -/
theorem Steady.regrant_of_counts (steady : Steady world)
    (found : world.container.heap address = some lock) (idle : lock.lockMode = .none)
    (modifying : mode.modifying)
    (counts : reservations (grantedTo world.container address lock mode waits) lock.key =
      owed ((world.become (grantedTo world.container address lock mode waits)).record address
        lock.key mode) lock.key) : Regrant world.container.getList lock := by
  have sound := steady.accounts.locks found
  have rewritten := rewritten_grantedTo mode waits found
  have indexed := rewritten.indexed steady.accounts.indexed
  have unheld : (ledger world.history).held lock.key = false := by
    rw [sound.held, idle]
    rfl
  have held : Held ((world.become
      (grantedTo world.container address lock mode waits)).record address lock.key mode).container
      ((world.become
        (grantedTo world.container address lock mode waits)).record address lock.key mode).handles :=
    steady.grantedTo_held found idle
  have holders : modifyingHolders ((world.become
      (grantedTo world.container address lock mode waits)).record address lock.key mode) lock.key =
      if mode.modifying then 1 else 0 :=
    held.modifyingHolders_eq indexed rewritten.here
  have reserved : reservations (grantedTo world.container address lock mode waits) lock.key =
      (if lock.reserveCount = 0 then world.container.getCount else lock.reserveCount) + 1 :=
    reservations_of_found indexed rewritten.here
  rw [reserved, owed, holders, if_pos modifying] at counts
  simp only [record, become, modifying, if_true] at counts
  rw [overlapping_granted, steady.counted] at counts
  refine (steady.accounts.regrant_iff (regular_ledger steady.distinct) found unheld).mp ?_
  simp only [ledger]
  omega

/-- So they are exact. -/
theorem Sound.exact (sound : Sound world) : Exact world := by
  have indexed := sound.accounts.indexed
  have counts := sound.counts
  refine ⟨fun key => ?_, counts, ?_, ?_, ?_⟩
  · cases hashed : world.container.hash key with
    | none => rw [sound.held.modifyingHolders_eq_zero indexed hashed]; omega
    | some address =>
      obtain ⟨lock, found, rfl⟩ := (indexed.hashed key address).mp hashed
      rw [sound.held.modifyingHolders_eq indexed found]
      split
      · next modifying => exact Nat.le_of_eq ((sound.accounts.locks found).single modifying)
      · omega
  · intro key cb waiterAllocated outcome taken
    rw [lockReserved_iff taken, counts, owed, Nat.add_pos_iff_pos_or_pos, length_pos_iff_exists_mem]
    simp [mem_overlapping]
  · intro key get isOpen overlap
    have pending : get ∈ overlapping world.history key := mem_overlapping.mpr ⟨isOpen, overlap⟩
    cases hashed : world.container.hash key with
    | none =>
      have nothing : overlapping world.history key = [] := (sound.accounts.absent key hashed).2
      rw [nothing] at pending
      cases pending
    | some address =>
      obtain ⟨lock, found, rfl⟩ := (indexed.hashed key address).mp hashed
      have reserved : lock.reserveCount = owed world lock.key :=
        (reservations_of_found indexed found).symm.trans (counts lock.key)
      have positive := length_pos_of_mem pending
      refine ⟨address, (sound.accounts.listed.modifyMem address).mpr ⟨lock, found, ?_⟩, rfl, ?_⟩
      · rw [reserved, owed]
        omega
      · rw [found]
        rfl
  · intro noHandles noGets
    have empty : ∀ address, world.container.heap address = none := by
      intro address
      cases found : world.container.heap address with
      | none => rfl
      | some lock =>
        have free := sound.held.count found
        rw [noHandles, countP_nil] at free
        have reserved : lock.reserveCount = owed world lock.key :=
          (reservations_of_found indexed found).symm.trans (counts lock.key)
        have nothing : overlapping world.history lock.key = [] := by
          rw [overlapping, noGets, filter_nil]
        rw [owed, modifyingHolders, noHandles, nothing] at reserved
        rcases (sound.needed found).1 with holder | reservation
        · exact absurd free.symm holder
        · exact absurd reserved reservation
    have none : world.container.allList = [] := by
      rw [eq_nil_iff_forall_not_mem]
      intro address among
      obtain ⟨lock, found⟩ := (indexed.allMem address).mp among
      rw [empty address] at found
      cases found
    refine ⟨?_, fun key => ?_⟩
    · rw [rklcGetLockCount, indexed.allCount, none]
      rfl
    · cases hashed : world.container.hash key with
      | none => rfl
      | some address =>
        obtain ⟨lock, found, _⟩ := (indexed.hashed key address).mp hashed
        rw [empty address] at found
        cases found

end Zetascale.Replication
