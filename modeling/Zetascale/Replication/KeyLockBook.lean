import Zetascale.Lib.Overlap
import Zetascale.Replication.KeyLock

/-!
# What the key lock container keeps account of

A ledger says which keys are held by a modifying lock, which recovery gets are
open, and which of them each key still waits for. `Accounts` says that the
container agrees with a ledger: its index and lists with its entries, and the
counts and logical times of its entries with the ledger. Each thing that a call
does to one entry (allocate, grant, release, reserve, settle, free) keeps the
agreement with a ledger that has made the same change.
-/

namespace Zetascale.Replication

open Overlap List KeyLock RklcGet

universe u

variable {κ : Type u} {container : Container κ} {address other : ℕ} {lock lock' : KeyLock κ}

/-- The hash table and the list of all locks hold exactly the live entries. -/
structure Indexed (container : Container κ) : Prop where
  hashed : ∀ key address, container.hash key = some address ↔
    ∃ lock, container.heap address = some lock ∧ lock.key = key
  below : ∀ address lock, container.heap address = some lock → address < container.nextAddress
  allMem : ∀ address, address ∈ container.allList ↔ ∃ lock, container.heap address = some lock
  allNodup : container.allList.Nodup
  allCount : container.allListCount = container.allList.length

/-- The running list holds the modifying locks, the modify list those that are reserved. -/
structure Listed (container : Container κ) : Prop where
  runningMem : ∀ address, address ∈ container.runningModifyList ↔
    ∃ lock, container.heap address = some lock ∧ lock.lockMode.modifying
  runningNodup : container.runningModifyList.Nodup
  runningCount : container.runningModifyListCount = container.runningModifyList.length
  modifyMem : ∀ address, address ∈ container.modifyList ↔
    ∃ lock, container.heap address = some lock ∧ 0 < lock.reserveCount
  modifyNodup : container.modifyList.Nodup

/-- The counts and logical times of one entry agree with the ledger. -/
structure LockSound (now : ℤ) (gets : List RklcGet) (book : Ledger κ ℕ) (lock : KeyLock κ) :
    Prop where
  idle : lock.lockCount = 0 ↔ lock.lockMode = .none
  single : lock.lockMode.modifying → lock.lockCount = 1
  held : book.held lock.key = lock.lockMode.modifying
  reserved : lock.reserveCount =
    (book.held lock.key).toNat + (book.pending lock.key).length
  waiters : ∀ waiter ∈ lock.waitList, waiter.lockMode ≠ .none
  first : lock.firstModifyingGrantLtime = LTIME_INVALID ↔ lock.reserveCount = 0
  last : lock.reserveCount = 0 → lock.lastModifyingReleaseLtime = LTIME_INVALID
  firstPast : lock.firstModifyingGrantLtime < now
  lastPast : lock.lastModifyingReleaseLtime < now
  since : book.held lock.key = false → ∀ get ∈ gets,
    (get.address ∈ book.pending lock.key ↔ get.startLtime < lock.lastModifyingReleaseLtime)

/-- The container agrees with the ledger, where `gets` are the gets that still count. -/
structure Accounts (container : Container κ) (gets : List RklcGet) (book : Ledger κ ℕ) : Prop where
  indexed : Indexed container
  listed : Listed container
  locks : ∀ {address lock}, container.heap address = some lock →
    LockSound container.currentLtime gets book lock
  spans : gets.map (·.address) = book.spans
  clock : 0 ≤ container.currentLtime
  started : ∀ get ∈ gets, 0 ≤ get.startLtime ∧ get.startLtime < container.currentLtime
  alone : ∀ get ∈ gets, get.oldestOverlappingModify = none →
    ∀ key, get.address ∉ book.pending key
  oldest : ∀ get ∈ gets, ∀ address, get.oldestOverlappingModify = some address →
    ∃ lock, container.heap address = some lock ∧ get.address ∈ book.pending lock.key
  absent : ∀ key, container.hash key = none → book.held key = false ∧ book.pending key = []

/-- A key has one entry. -/
theorem Indexed.keyInjective (indexed : Indexed container)
    (found : container.heap address = some lock)
    (found' : container.heap other = some lock') (same : lock.key = lock'.key) :
    address = other := by
  have first := (indexed.hashed lock.key address).mpr ⟨lock, found, rfl⟩
  have second := (indexed.hashed lock.key other).mpr ⟨lock', found', same.symm⟩
  exact Option.some.inj (first.symm.trans second)

/-- Only the entry at an address has changed, and it keeps its key. -/
structure Rewritten (before after : Container κ) (address : ℕ) (lock lock' : KeyLock κ) :
    Prop where
  found : before.heap address = some lock
  key : lock'.key = lock.key
  heap : after.heap = Function.update before.heap address (some lock')
  hash : after.hash = before.hash
  next : after.nextAddress = before.nextAddress
  all : after.allList = before.allList
  allCount : after.allListCount = before.allListCount

variable {after : Container κ}

namespace Rewritten

variable {before : Container κ} {entry : KeyLock κ}

theorem put (lock' : KeyLock κ) (found : before.heap address = some lock)
    (key : lock'.key = lock.key) : Rewritten before (before.put address lock') address lock lock' :=
  ⟨found, key, rfl, rfl, rfl, rfl, rfl⟩

section

variable (rewritten : Rewritten before after address lock lock')

include rewritten

theorem here : after.heap address = some lock' := by
  rw [rewritten.heap, Function.update_self]

theorem elsewhere
    (ne : other ≠ address) : after.heap other = before.heap other := by
  rw [rewritten.heap, Function.update_of_ne ne]

/-- An entry is the new one or an old one. -/
theorem newOrOld (there : after.heap other = some entry) :
    other = address ∧ entry = lock' ∨ other ≠ address ∧ before.heap other = some entry := by
  by_cases same : other = address
  · rw [same, rewritten.here, Option.some.injEq] at there
    exact .inl ⟨same, there.symm⟩
  · exact .inr ⟨same, rewritten.elsewhere same ▸ there⟩

/-- No entry comes or goes. -/
theorem live :
    (∃ entry, after.heap other = some entry) ↔ ∃ entry, before.heap other = some entry := by
  by_cases same : other = address
  · simp [same, rewritten.here, rewritten.found]
  · rw [rewritten.elsewhere same]

/-- A statement about an entry and its address holds of the entries afterwards, if it holds of the
new one and held of the others. -/
theorem exists_iff {P : ℕ → KeyLock κ → Prop} :
    (∃ entry, after.heap other = some entry ∧ P other entry) ↔
      if other = address then P address lock'
      else ∃ entry, before.heap other = some entry ∧ P other entry := by
  by_cases same : other = address
  · subst same
    rw [if_pos rfl, rewritten.here]
    constructor
    · rintro ⟨entry, here, holds⟩
      rw [Option.some.inj here]
      exact holds
    · exact fun holds => ⟨lock', rfl, holds⟩
  · rw [if_neg same, rewritten.elsewhere same]

/-- The index does not change. -/
theorem indexed (indexed : Indexed before) : Indexed after where
  hashed key other := by
    rw [rewritten.hash, indexed.hashed key other,
      rewritten.exists_iff (P := fun _ entry => entry.key = key)]
    by_cases same : other = address
    · subst same
      rw [if_pos rfl, rewritten.key]
      constructor
      · rintro ⟨entry, here, keyed⟩
        rw [rewritten.found, Option.some.injEq] at here
        rw [here]
        exact keyed
      · exact fun keyed => ⟨lock, rewritten.found, keyed⟩
    · rw [if_neg same]
  below other entry here := by
    rw [rewritten.next]
    rcases rewritten.newOrOld here with ⟨rfl, _⟩ | ⟨_, there⟩
    · exact indexed.below other lock rewritten.found
    · exact indexed.below other entry there
  allMem other := by rw [rewritten.all, indexed.allMem, rewritten.live]
  allNodup := rewritten.all ▸ indexed.allNodup
  allCount := by rw [rewritten.allCount, rewritten.all, indexed.allCount]

end

end Rewritten

variable {now : ℤ} {gets gets' : List RklcGet} {book book' : Ledger κ ℕ}

/-- An entry whose key the ledger treats as before stays sound as time goes on. -/
theorem LockSound.carry {now' : ℤ} (sound : LockSound now gets book lock) (later : now ≤ now')
    (held : book'.held lock.key = book.held lock.key)
    (pending : book'.pending lock.key = book.pending lock.key)
    (known : ∀ get' ∈ gets', ∃ get ∈ gets,
      get.address = get'.address ∧ get.startLtime = get'.startLtime) :
    LockSound now' gets' book' lock where
  idle := sound.idle
  single := sound.single
  held := held.trans sound.held
  reserved := by rw [held, pending, sound.reserved]
  waiters := sound.waiters
  first := sound.first
  last := sound.last
  firstPast := Int.lt_of_lt_of_le sound.firstPast later
  lastPast := Int.lt_of_lt_of_le sound.lastPast later
  since notHeld get' within := by
    obtain ⟨get, among, sameAddress, sameStart⟩ := known get' within
    rw [pending, ← sameAddress, ← sameStart]
    exact sound.since (held ▸ notHeld) get among

/-- The lists after one entry has changed: it is on each of them as it should be, and the others
are as before. -/
theorem Listed.rewrite (listed : Listed container)
    (rewritten : Rewritten container after address lock lock')
    (running : ∀ other, other ∈ after.runningModifyList ↔
      if other = address then lock'.lockMode.modifying = true
      else other ∈ container.runningModifyList) (runningNodup : after.runningModifyList.Nodup)
    (runningCount : after.runningModifyListCount = after.runningModifyList.length)
    (modify : ∀ other, other ∈ after.modifyList ↔
      if other = address then 0 < lock'.reserveCount else other ∈ container.modifyList)
    (modifyNodup : after.modifyList.Nodup) : Listed after where
  runningMem other := by
    rw [running, rewritten.exists_iff (P := fun _ entry => entry.lockMode.modifying),
      listed.runningMem]
  runningNodup := runningNodup
  runningCount := runningCount
  modifyMem other := by
    rw [modify, rewritten.exists_iff (P := fun _ entry => 0 < entry.reserveCount), listed.modifyMem]
  modifyNodup := modifyNodup

variable {mode : RklMode}

theorem Listed.running_same (listed : Listed container) (found : container.heap address = some lock)
    (modifying : mode.modifying = lock.lockMode.modifying) (other : ℕ) :
    other ∈ container.runningModifyList ↔
      if other = address then mode.modifying = true else other ∈ container.runningModifyList := by
  split
  · next same => simp [same, listed.runningMem, found, modifying]
  · rfl

/-- One entry and what the ledger says of its key have changed. -/
theorem Accounts.rewrite (accounts : Accounts container gets book)
    (rewritten : Rewritten container after address lock lock') (listed : Listed after)
    (later : container.currentLtime ≤ after.currentLtime)
    (sound : LockSound after.currentLtime gets' book' lock') (elsewhere : ∀ key, key ≠ lock.key →
      book'.held key = book.held key ∧ book'.pending key = book.pending key)
    (spans : gets'.map (·.address) = book'.spans) (known : ∀ get' ∈ gets', ∃ get ∈ gets,
      get.address = get'.address ∧ get.startLtime = get'.startLtime ∧
      ∀ other, other ≠ address → get'.oldestOverlappingModify = some other →
        get.oldestOverlappingModify = some other)
    (alone : ∀ get' ∈ gets', get'.oldestOverlappingModify = none →
      ∀ key, get'.address ∉ book'.pending key)
    (oldest : ∀ get' ∈ gets', get'.oldestOverlappingModify = some address →
      get'.address ∈ book'.pending lock.key) : Accounts after gets' book' where
  indexed := rewritten.indexed accounts.indexed
  listed := listed
  locks {other entry} here := by
    rcases rewritten.newOrOld here with ⟨_, rfl⟩ | ⟨other, there⟩
    · exact sound
    · have ne : entry.key ≠ lock.key := fun sameKey =>
        other (accounts.indexed.keyInjective there rewritten.found sameKey)
      refine (accounts.locks there).carry later (elsewhere _ ne).1 (elsewhere _ ne).2 ?_
      intro get' among
      obtain ⟨get, before, sameAddress, sameStart, _⟩ := known get' among
      exact ⟨get, before, sameAddress, sameStart⟩
  spans := spans
  clock := Int.le_trans accounts.clock later
  started get' among := by
    obtain ⟨get, before, _, sameStart, _⟩ := known get' among
    have times := accounts.started get before
    rw [← sameStart]
    exact ⟨times.1, Int.lt_of_lt_of_le times.2 later⟩
  alone := alone
  oldest get' among other first := by
    by_cases same : other = address
    · subst same
      exact ⟨lock', rewritten.here, rewritten.key ▸ oldest get' among first⟩
    · obtain ⟨get, before, sameAddress, _, keeps⟩ := known get' among
      obtain ⟨entry, here, pending⟩ := accounts.oldest get before other (keeps other same first)
      have ne : entry.key ≠ lock.key := fun sameKey =>
        same (accounts.indexed.keyInjective here rewritten.found sameKey)
      refine ⟨entry, (rewritten.elsewhere same).trans here, ?_⟩
      rw [(elsewhere _ ne).2, ← sameAddress]
      exact pending
  absent key unhashed := by
    rw [rewritten.hash] at unhashed
    have ne : key ≠ lock.key := by
      rintro rfl
      rw [(accounts.indexed.hashed _ _).mpr ⟨lock, rewritten.found, rfl⟩] at unhashed
      cases unhashed
    rw [(elsewhere key ne).1, (elsewhere key ne).2]
    exact accounts.absent key unhashed

theorem Accounts.pending_of_oldest (accounts : Accounts container gets book)
    (found : container.heap address = some lock) {get : RklcGet} (among : get ∈ gets)
    (first : get.oldestOverlappingModify = some address) : get.address ∈ book.pending lock.key := by
  obtain ⟨entry, here, pending⟩ := accounts.oldest get among address first
  cases found.symm.trans here
  exact pending

variable {waits : List KeyLockWait}

/-- The mode, the number of holders and the waiters of an entry may change, as long as a modifying
hold neither begins nor ends. -/
theorem Accounts.put (accounts : Accounts container gets book)
    (found : container.heap address = some lock) {count : ℕ}
    (modifying : mode.modifying = lock.lockMode.modifying) (idle : count = 0 ↔ mode = .none)
    (single : mode.modifying → count = 1) (waiters : ∀ waiter ∈ waits, waiter.lockMode ≠ .none) :
    Accounts (container.put address
      { lock with lockMode := mode, lockCount := count, waitList := waits }) gets book := by
  have rewritten := Rewritten.put
    { lock with lockMode := mode, lockCount := count, waitList := waits } found rfl
  have sound := accounts.locks found
  have listed := accounts.listed
  refine accounts.rewrite rewritten ?_ (Int.le_refl _) ?_ (fun _ _ => ⟨rfl, rfl⟩) accounts.spans
    (fun get among => ⟨get, among, rfl, rfl, fun _ _ first => first⟩) accounts.alone
    fun get among first => accounts.pending_of_oldest found among first
  · refine listed.rewrite rewritten (listed.running_same found modifying) listed.runningNodup
      listed.runningCount (fun other => ?_) listed.modifyNodup
    split
    · next same => exact same ▸ (listed.modifyMem address).trans (by simp [found])
    · rfl
  · exact ⟨idle, single, sound.held.trans modifying.symm, sound.reserved, waiters, sound.first,
      sound.last, sound.firstPast, sound.lastPast, sound.since⟩

@[simp] theorem overlap_address (get : RklcGet) : (get.overlap address).address = get.address := by
  unfold overlap
  split <;> rfl

@[simp] theorem overlap_startLtime (get : RklcGet) :
    (get.overlap address).startLtime = get.startLtime := by
  unfold overlap
  split <;> rfl

theorem overlap_oldest_ne_none (get : RklcGet) :
    (get.overlap address).oldestOverlappingModify ≠ none := by
  unfold overlap
  split
  · exact Option.some_ne_none address
  · assumption

theorem overlap_oldest_of_ne {get : RklcGet} (ne : other ≠ address)
    (first : (get.overlap address).oldestOverlappingModify = some other) :
    get.oldestOverlappingModify = some other := by
  unfold overlap at first
  split at first
  · exact absurd (Option.some.inj first).symm ne
  · exact first

/-- The ledger counts for a key only spans that are open, each once, and all of them while the key
is held. -/
structure Regular (book : Ledger κ ℕ) : Prop where
  spansNodup : book.spans.Nodup
  nodup : ∀ key, (book.pending key).Nodup
  isOpen : ∀ key, ∀ span ∈ book.pending key, span ∈ book.spans
  full : ∀ key, book.held key = true → book.pending key = book.spans

/-- A lock that is granted to a modifier either has no reservations, or all open gets hold one. -/
def Regrant (gets : List RklcGet) (lock : KeyLock κ) : Prop :=
  lock.reserveCount = 0 ∨ ∀ get ∈ gets, get.startLtime < lock.lastModifyingReleaseLtime

/-- The reservations with which a grant starts are exact just in case the lock had none or all. -/
theorem Accounts.regrant_iff (accounts : Accounts container gets book) (regular : Regular book)
    (found : container.heap address = some lock) (unheld : book.held lock.key = false) :
    (if lock.reserveCount = 0 then gets.length else lock.reserveCount) = book.spans.length ↔
      Regrant gets lock := by
  have sound := accounts.locks found
  have count : gets.length = book.spans.length := by rw [← accounts.spans, length_map]
  have reserved : lock.reserveCount = (book.pending lock.key).length := by
    rw [sound.reserved, unheld, Bool.toNat_false, Nat.zero_add]
  by_cases none : lock.reserveCount = 0
  · rw [if_pos none]
    exact ⟨fun _ => .inl none, fun _ => count⟩
  · rw [if_neg none, reserved]
    constructor
    · intro same
      refine .inr fun get among => ?_
      rw [← sound.since unheld get among]
      -- a part of the open gets that is as long as the whole has all of them
      have perm := ((regular.nodup lock.key).subperm (regular.isOpen lock.key)).perm_of_length_le
        (Nat.le_of_eq same.symm)
      rw [perm.mem_iff, ← accounts.spans]
      exact mem_map_of_mem among
    · rintro (zero | all)
      · exact absurd zero none
      · have upper := ((regular.nodup lock.key).subperm (regular.isOpen lock.key)).length_le
        have lower : book.spans.length ≤ (book.pending lock.key).length := by
          refine (regular.spansNodup.subperm fun span isOpen => ?_).length_le
          rw [← accounts.spans, mem_map] at isOpen
          obtain ⟨get, among, rfl⟩ := isOpen
          exact (sound.since unheld get among).mpr (all get among)
        exact Nat.le_antisymm upper lower

/-- An entry with one reservation less; the last one takes its times with it. -/
def KeyLock.unreserved (lock : KeyLock κ) : KeyLock κ :=
  if lock.reserveCount = 1 then
    { lock with
      reserveCount := 0
      currentModifyingGrantLtime := LTIME_INVALID
      firstModifyingGrantLtime := LTIME_INVALID
      lastModifyingReleaseLtime := LTIME_INVALID }
  else { lock with reserveCount := lock.reserveCount - 1 }

/-- The container with one reservation of an entry less. -/
def decremented (container : Container κ) (address : ℕ) (lock : KeyLock κ) : Container κ :=
  { container with
    heap := Function.update container.heap address (some lock.unreserved)
    modifyList :=
      if lock.reserveCount = 1 then container.modifyList.erase address else container.modifyList }

/-- The code drops one reservation. -/
theorem rklReserveDecLocked_eq (found : container.heap address = some lock)
    (reserved : lock.reserveCount ≠ 0) (granted : lock.firstModifyingGrantLtime ≠ LTIME_INVALID)
    (released : lock.reserveCount = 1 → lock.lastModifyingReleaseLtime ≠ LTIME_INVALID) :
    rklReserveDecLocked container address = some (decremented container address lock) := by
  rw [rklReserveDecLocked, found, Option.bind_some, if_neg reserved]
  by_cases one : lock.reserveCount = 1
  · rw [if_pos ⟨by omega, granted⟩, if_neg (released one)]
    simp [decremented, unreserved, if_pos one]
  · rw [if_neg (by omega)]
    simp only [decremented, unreserved, if_neg one]
    rfl

/-- What a reservation has no part in. -/
@[simp] theorem unreserved_rest : lock.unreserved.key = lock.key ∧
    lock.unreserved.lockMode = lock.lockMode ∧ lock.unreserved.lockCount = lock.lockCount ∧
    lock.unreserved.waitList = lock.waitList := by
  unfold unreserved
  split <;> exact ⟨rfl, rfl, rfl, rfl⟩

@[simp] theorem unreserved_reserveCount : lock.unreserved.reserveCount = lock.reserveCount - 1 := by
  unfold unreserved
  split
  · next one => simp [one]
  · rfl

theorem unreserved_lastModifyingReleaseLtime : lock.unreserved.lastModifyingReleaseLtime =
    if lock.reserveCount = 1 then LTIME_INVALID else lock.lastModifyingReleaseLtime := by
  unfold unreserved
  split <;> rfl

theorem unreserved_times (lock : KeyLock κ) (clock : 0 ≤ now)
    (granted : lock.firstModifyingGrantLtime ≠ LTIME_INVALID) (reserved : lock.reserveCount ≠ 0)
    (firstPast : lock.firstModifyingGrantLtime < now)
    (lastPast : lock.lastModifyingReleaseLtime < now) :
    (lock.unreserved.firstModifyingGrantLtime = LTIME_INVALID ↔ lock.unreserved.reserveCount = 0) ∧
      (lock.unreserved.reserveCount = 0 →
        lock.unreserved.lastModifyingReleaseLtime = LTIME_INVALID) ∧
      lock.unreserved.firstModifyingGrantLtime < now ∧
      lock.unreserved.lastModifyingReleaseLtime < now := by
  unfold unreserved LTIME_INVALID at *
  split <;> dsimp only <;> omega

theorem Listed.unreserve_mem (listed : Listed container)
    (found : container.heap address = some lock) (reserved : lock.reserveCount ≠ 0) (other : ℕ) :
    (other ∈ if lock.reserveCount = 1 then container.modifyList.erase address
      else container.modifyList) ↔
      if other = address then 0 < lock.reserveCount - 1 else other ∈ container.modifyList := by
  have on : address ∈ container.modifyList :=
    (listed.modifyMem address).mpr ⟨lock, found, Nat.pos_of_ne_zero reserved⟩
  by_cases one : lock.reserveCount = 1
  · rw [if_pos one, listed.modifyNodup.mem_erase_iff]
    by_cases same : other = address <;> simp [same, one]
  · rw [if_neg one]
    by_cases same : other = address
    · rw [if_pos same, same]
      exact iff_of_true on (by omega)
    · rw [if_neg same]

theorem Listed.unreserve_nodup (listed : Listed container) :
    (if lock.reserveCount = 1 then container.modifyList.erase address
      else container.modifyList).Nodup := by
  split
  · exact listed.modifyNodup.erase address
  · exact listed.modifyNodup

/-- The container after a modifier has been granted an entry. -/
def grantedTo (container : Container κ) (address : ℕ) (lock : KeyLock κ) (mode : RklMode)
    (waits : List KeyLockWait) : Container κ :=
  grantModifying
    (container.put address { lock with lockMode := mode, lockCount := 1, waitList := waits })
    address { lock with lockMode := mode, lockCount := 1, waitList := waits }

theorem rewritten_grantedTo (mode : RklMode) (waits : List KeyLockWait)
    (found : container.heap address = some lock) :
    Rewritten container (grantedTo container address lock mode waits) address lock
      (KeyLock.granted container.currentLtime container.getCount
        { lock with lockMode := mode, lockCount := 1, waitList := waits }) :=
  ⟨found, rfl, Function.update_idem _ _ _, rfl, rfl, rfl, rfl⟩

variable [DecidableEq κ]

/-- An idle entry is granted. -/
theorem LockSound.grant (sound : LockSound now gets book lock) (clock : 0 ≤ now)
    {getCount : ℕ} (counts : (if lock.reserveCount = 0 then getCount else lock.reserveCount) =
      book.spans.length) (modifying : mode.modifying)
    (waiters : ∀ waiter ∈ waits, waiter.lockMode ≠ .none) :
    LockSound (now + 1) gets' (book.grant lock.key) (KeyLock.granted now getCount
        { lock with lockMode := mode, lockCount := 1, waitList := waits }) where
  idle := by
    have busy : mode ≠ .none := by
      rintro rfl
      cases modifying
    simp [granted, busy]
  single _ := rfl
  held := by simp [granted, Ledger.grant, modifying]
  reserved := by
    simp only [granted, Ledger.grant, Function.update_self, counts, Bool.toNat_true]
    exact Nat.add_comm _ _
  waiters := waiters
  first := by
    have valid : now ≠ LTIME_INVALID := by
      unfold LTIME_INVALID
      omega
    by_cases newcomer : lock.firstModifyingGrantLtime = LTIME_INVALID
    · simp [granted, newcomer, valid]
    · simp [granted, newcomer]
  last none := absurd none (Nat.succ_ne_zero _)
  firstPast := by
    have past := sound.firstPast
    simp only [granted]
    split <;> omega
  lastPast := Int.lt_trans sound.lastPast (Int.lt_succ now)
  since unheld := by simp [granted, Ledger.grant] at unheld

/-- So the ledger grants its key. -/
theorem Accounts.grant (accounts : Accounts container container.getList book)
    (regular : Regular book) (found : container.heap address = some lock)
    (counted : container.getCount = container.getList.length) (idle : lock.lockMode = .none)
    (modifying : mode.modifying) (waiters : ∀ waiter ∈ waits, waiter.lockMode ≠ .none)
    (regrant : Regrant container.getList lock) :
    Accounts (grantedTo container address lock mode waits)
      (container.getList.map (RklcGet.overlap address)) (book.grant lock.key) := by
  have sound := accounts.locks found
  have listed := accounts.listed
  have unheld : book.held lock.key = false := by
    rw [sound.held, idle]
    rfl
  have counts := (accounts.regrant_iff regular found unheld).mpr regrant
  have rewritten := rewritten_grantedTo mode waits found
  have notRunning : address ∉ container.runningModifyList := by
    rw [listed.runningMem]
    rintro ⟨entry, here, modifies⟩
    cases found.symm.trans here
    rw [idle] at modifies
    cases modifies
  have onModify : address ∈ container.modifyList ↔
      lock.firstModifyingGrantLtime ≠ LTIME_INVALID := by
    rw [listed.modifyMem, Ne, sound.first]
    simp [found, Nat.pos_iff_ne_zero]
  refine accounts.rewrite rewritten ?_ (Int.le_add_one (Int.le_refl _)) ?_ ?_ ?_ ?_ ?_ ?_
  · refine listed.rewrite rewritten (fun other => ?_) ?_ ?_ (fun other => ?_) ?_
    · by_cases same : other = address
      · simp [grantedTo, grantModifying, same, granted, modifying]
      · simp [grantedTo, grantModifying, Container.put, same]
    · exact listed.runningNodup.append (nodup_singleton address) (disjoint_singleton.mpr notRunning)
    · simp [grantedTo, grantModifying, Container.put, listed.runningCount]
    · by_cases newcomer : lock.firstModifyingGrantLtime = LTIME_INVALID <;>
        by_cases same : other = address <;>
        simp [grantedTo, grantModifying, Container.put, newcomer, same, granted, onModify]
    · simp only [grantedTo, grantModifying, Container.put]
      split
      · next newcomer =>
          exact listed.modifyNodup.append (nodup_singleton address)
            (disjoint_singleton.mpr fun among => onModify.mp among newcomer)
      · exact listed.modifyNodup
  · exact sound.grant accounts.clock (counted ▸ counts) modifying waiters
  · intro key ne
    exact ⟨Function.update_of_ne ne _ _, Function.update_of_ne ne _ _⟩
  · rw [map_map]
    exact (map_congr_left fun get _ => overlap_address get).trans accounts.spans
  · intro get' among
    obtain ⟨get, before, rfl⟩ := mem_map.mp among
    exact ⟨get, before, (overlap_address get).symm, (overlap_startLtime get).symm,
      fun other ne first => overlap_oldest_of_ne ne first⟩
  · intro get' among lonely
    obtain ⟨get, before, rfl⟩ := mem_map.mp among
    exact absurd lonely (overlap_oldest_ne_none get)
  · intro get' among first
    obtain ⟨get, before, rfl⟩ := mem_map.mp among
    simp only [Ledger.grant, Function.update_self, overlap_address, ← accounts.spans]
    exact mem_map_of_mem before

end Zetascale.Replication
