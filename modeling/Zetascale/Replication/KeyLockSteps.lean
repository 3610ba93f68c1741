import Zetascale.Replication.KeyLockBook

/-!
# What the calls on key locks do to the accounts

Release of a modifying hold, the free of an entry that nothing needs, the start
of a get and the walk with which a get completes. Under agreement with a ledger
none of them faults, and each leaves agreement with the changed ledger behind.
-/

namespace Zetascale.Replication

open Overlap Function List Option

universe u

variable {κ : Type u} {container : Container κ} {gets : List RklcGet}
  {book : Ledger κ ℕ} {address : ℕ} {lock : KeyLock κ}

theorem LockSound.reserved_of_modifying {now : ℤ} (sound : LockSound now gets book lock)
    (modifying : lock.lockMode.modifying) : lock.reserveCount = 1 + (book.pending lock.key).length ∧
      lock.firstModifyingGrantLtime ≠ LTIME_INVALID := by
  have reserved := sound.reserved
  rw [sound.held, modifying, Bool.toNat_true] at reserved
  exact ⟨reserved, fun none => by rw [sound.first] at none; omega⟩

/-- Nothing is owed to a key whose entry has no reservation. -/
theorem LockSound.settled {now : ℤ} (sound : LockSound now gets book lock)
    (unreserved : lock.reserveCount = 0) :
    book.held lock.key = false ∧ book.pending lock.key = [] := by
  have reserved := sound.reserved
  rw [unreserved, eq_comm, Nat.add_eq_zero_iff, length_eq_zero_iff, Bool.toNat_eq_zero] at reserved
  exact reserved

/-- The container after a modifying hold of an entry has ended. -/
def released (container : Container κ) (address : ℕ) (lock : KeyLock κ) : Container κ :=
  decremented { container with
      runningModifyList := container.runningModifyList.erase address
      runningModifyListCount := container.runningModifyListCount - 1
      currentLtime := container.currentLtime + 1
      heap := update container.heap address
        (some { lock with lastModifyingReleaseLtime := container.currentLtime }) } address
    { lock with lastModifyingReleaseLtime := container.currentLtime }

/-- A release passes its assertions. -/
theorem releaseModifying_eq (accounts : Accounts container gets book)
    (found : container.heap address = some lock) (modifying : lock.lockMode.modifying) {count : ℕ} :
    releaseModifying container address { lock with lockCount := count } =
      some (released container address { lock with lockCount := count }) := by
  have sound := accounts.locks found
  have listed := accounts.listed
  obtain ⟨reserved, granted⟩ := sound.reserved_of_modifying modifying
  have running : address ∈ container.runningModifyList :=
    (listed.runningMem address).mpr ⟨lock, found, modifying⟩
  have nonempty : container.runningModifyList ≠ [] := ne_nil_of_mem running
  have counted := listed.runningCount
  have positive := length_pos_of_ne_nil nonempty
  have shorter := length_erase_of_mem running
  rw [releaseModifying, if_neg (by simp [nonempty]; omega)]
  have agree : container.runningModifyList.erase address = [] ↔
      container.runningModifyListCount - 1 = 0 := by
    rw [← length_eq_zero_iff, shorter, counted]
  simp only [agree, not_true_eq_false, if_false]
  refine rklReserveDecLocked_eq (update_self _ _ _) (by simp only; omega) granted ?_
  intro _ invalid
  have clock := accounts.clock
  simp only [LTIME_INVALID] at invalid
  omega

/-- The entry after its modifying holder has gone. -/
def KeyLock.letGo (lock : KeyLock κ) (now : ℤ) : KeyLock κ :=
  { KeyLock.unreserved { lock with lockCount := 0, lastModifyingReleaseLtime := now } with
    lockMode := .none }

open KeyLock

theorem rewritten_letGo (now : ℤ) (found : container.heap address = some lock) :
    Rewritten container ((released container address { lock with lockCount := 0 }).put address
      (lock.letGo now)) address lock (lock.letGo now) := by
  refine ⟨found, unreserved_rest.1, ?_, rfl, rfl, rfl, rfl⟩
  simp [released, decremented, Container.put]

section

variable [DecidableEq κ]

/-- A modifying lock is released. -/
theorem Accounts.release (accounts : Accounts container gets book)
    (found : container.heap address = some lock) (modifying : lock.lockMode.modifying)
    (full : ∀ get ∈ gets, get.address ∈ book.pending lock.key) :
    Accounts ((released container address { lock with lockCount := 0 }).put address
      (lock.letGo container.currentLtime)) gets (book.release lock.key) := by
  have sound := accounts.locks found
  have listed := accounts.listed
  obtain ⟨reserved, granted⟩ := sound.reserved_of_modifying modifying
  have running : address ∈ container.runningModifyList :=
    (listed.runningMem address).mpr ⟨lock, found, modifying⟩
  have rewritten := rewritten_letGo container.currentLtime found
  unfold letGo at rewritten ⊢
  refine accounts.rewrite rewritten ?_ (Int.le_add_one (Int.le_refl _)) ?_ ?_ accounts.spans
    (fun get among => ⟨get, among, rfl, rfl, fun _ _ first => first⟩) accounts.alone
    fun get among first => accounts.pending_of_oldest found among first
  · refine listed.rewrite rewritten (fun other => ?_) (listed.runningNodup.erase address) ?_
      (fun other => ?_) listed.unreserve_nodup
    · refine listed.runningNodup.mem_erase_iff.trans ?_
      by_cases same : other = address <;> simp [same, RklMode.modifying]
    · have shorter := length_erase_of_mem running
      have counted := listed.runningCount
      simp only [released, decremented, Container.put]
      rw [shorter, counted]
    · rw [unreserved_reserveCount]
      exact listed.unreserve_mem found (by omega) other
  · have clock := accounts.clock
    have past := sound.firstPast
    obtain ⟨first, last, firstPast, lastPast⟩ := unreserved_times
      { lock with lockCount := 0, lastModifyingReleaseLtime := container.currentLtime }
      (Int.add_nonneg clock Int.one_nonneg) granted (by dsimp only; omega)
      (Int.lt_trans past (Int.lt_succ _)) (Int.lt_succ container.currentLtime)
    refine ⟨?_, (by cases ·), ?_, ?_, ?_, first, last, firstPast, lastPast, ?_⟩
    · simp
    · simp [Ledger.release, RklMode.modifying]
    · simp [Ledger.release, reserved]
    · simpa using sound.waiters
    · intro _ get among
      have waits := full get among
      have started := accounts.started get among
      have some : (book.pending lock.key).length ≠ 0 :=
        fun empty => by rw [length_eq_zero_iff.mp empty] at waits; cases waits
      refine iff_of_true (by simpa [Ledger.release] using waits) ?_
      rw [unreserved_lastModifyingReleaseLtime, if_neg (by simp only; omega)]
      exact started.2
  · intro key ne
    exact ⟨update_of_ne ne _ _, rfl⟩

/-- What keeps an entry: a holder, or a reservation; where requests wait, it is a holder. -/
def KeyLock.Needed (lock : KeyLock κ) : Prop :=
  (lock.lockCount ≠ 0 ∨ lock.reserveCount ≠ 0) ∧ (lock.waitList ≠ [] → lock.lockCount ≠ 0)

/-- The container without an entry. -/
def freed (container : Container κ) (address : ℕ) (lock : KeyLock κ) : Container κ :=
  { container with
    heap := update container.heap address none
    hash := update container.hash lock.key none
    allList := container.allList.erase address
    allListCount := container.allListCount - 1 }

theorem freed_heap {other : ℕ} {entry : KeyLock κ} :
    (freed container address lock).heap other = some entry ↔
      other ≠ address ∧ container.heap other = some entry := by
  simp [freed, update_apply]

/-- `rkl_check_free_locked` frees an entry that has no holder, no reservation and no waiter. -/
theorem rklCheckFreeLocked_eq (accounts : Accounts container gets book)
    (found : container.heap address = some lock) : rklCheckFreeLocked container address =
      some (if lock.lockCount = 0 ∧ lock.reserveCount = 0 ∧ lock.waitList = [] then
        freed container address lock else container) := by
  have sound := accounts.locks found
  have hashed := (accounts.indexed.hashed lock.key address).mpr ⟨lock, found, rfl⟩
  have reserved : ¬ (lock.lockMode.modifying ∧ lock.reserveCount = 0) := by
    rintro ⟨modifying, none⟩
    have some := (sound.reserved_of_modifying modifying).1
    omega
  rw [rklCheckFreeLocked, found, bind_some, if_neg reserved]
  by_cases unneeded : lock.lockCount = 0 ∧ lock.reserveCount = 0 ∧ lock.waitList = []
  · have never : lock.firstModifyingGrantLtime = LTIME_INVALID := sound.first.mpr unneeded.2.1
    rw [if_pos unneeded, if_pos unneeded, if_neg fun bad => bad.1 never,
      if_neg fun bad => bad hashed]
    simp only [never, ne_eq, not_true_eq_false, if_false]
    rfl
  · rw [if_neg unneeded, if_neg unneeded]

/-- An entry is freed. -/
theorem Indexed.free (indexed : Indexed container) (found : container.heap address = some lock) :
    Indexed (freed container address lock) where
  hashed key other := by
    simp only [freed_heap]
    by_cases sameKey : key = lock.key
    · subst sameKey
      simp only [freed, update_self]
      refine iff_of_false nofun ?_
      rintro ⟨entry, ⟨ne, here⟩, keyed⟩
      exact ne (indexed.keyInjective here found keyed)
    · simp only [freed, update_of_ne sameKey, indexed.hashed, and_assoc]
      refine exists_congr fun entry => iff_and_self.mpr fun ⟨here, keyed⟩ same => sameKey ?_
      rw [same] at here
      cases found.symm.trans here
      exact keyed.symm
  below other entry here := indexed.below other entry (freed_heap.mp here).2
  allMem other := by
    refine indexed.allNodup.mem_erase_iff.trans ?_
    simp [indexed.allMem, freed_heap]
  allNodup := indexed.allNodup.erase address
  allCount := by
    have among := (indexed.allMem address).mpr ⟨lock, found⟩
    simp only [freed]
    rw [length_erase_of_mem among, indexed.allCount]

/-- An entry that has no holder and no reservation can go. -/
theorem Accounts.free (accounts : Accounts container gets book)
    (found : container.heap address = some lock) (unlocked : lock.lockCount = 0)
    (unreserved : lock.reserveCount = 0) : Accounts (freed container address lock) gets book := by
  have sound := accounts.locks found
  have listed := accounts.listed
  obtain ⟨unheld, nothing⟩ := sound.settled unreserved
  have idle : lock.lockMode = .none := sound.idle.mp unlocked
  refine ⟨accounts.indexed.free found, ⟨fun other => ?_, listed.runningNodup, listed.runningCount,
    fun other => ?_, listed.modifyNodup⟩, ?_, accounts.spans, accounts.clock, accounts.started,
    accounts.alone, ?_, ?_⟩
  · refine (listed.runningMem other).trans ?_
    by_cases same : other = address <;> simp [freed_heap, same, found, idle, RklMode.modifying]
  · refine (listed.modifyMem other).trans ?_
    by_cases same : other = address <;> simp [freed_heap, same, found, unreserved]
  · intro other entry here
    exact accounts.locks (freed_heap.mp here).2
  · intro get among other first
    obtain ⟨entry, here, pending⟩ := accounts.oldest get among other first
    refine ⟨entry, freed_heap.mpr ⟨?_, here⟩, pending⟩
    rintro rfl
    cases found.symm.trans here
    rw [nothing] at pending
    cases pending
  · intro key unhashed
    by_cases same : key = lock.key
    · exact same ▸ ⟨unheld, nothing⟩
    · exact accounts.absent key (by simpa [freed, update_of_ne same] using unhashed)

/-- One get less to wait for. -/
theorem Accounts.settle (accounts : Accounts container gets book)
    (found : container.heap address = some lock) {span : ℕ}
    (pending : span ∈ book.pending lock.key) (completed : ∀ get ∈ gets, get.address ≠ span)
    (valid : book.held lock.key = false → lock.lastModifyingReleaseLtime ≠ LTIME_INVALID) :
    rklReserveDecLocked container address = some (decremented container address lock) ∧
      Accounts (decremented container address lock) gets (book.settle span lock.key) := by
  have sound := accounts.locks found
  have listed := accounts.listed
  have clock := accounts.clock
  have reserved := sound.reserved
  have positive := length_pos_of_mem pending
  have shorter := length_erase_of_mem pending
  have granted : lock.firstModifyingGrantLtime ≠ LTIME_INVALID := by
    rw [Ne, sound.first]
    omega
  have here : (book.settle span lock.key).pending lock.key =
      (book.pending lock.key).erase span := update_self _ _ _
  -- with a single reservation it is the one of this get, and no hold is left
  have single : lock.reserveCount = 1 →
      book.held lock.key = false ∧ (book.pending lock.key).erase span = [] := by
    rw [← Bool.toNat_eq_zero, ← length_eq_zero_iff]
    omega
  have rewritten : Rewritten container (decremented container address lock) address lock
      lock.unreserved := ⟨found, unreserved_rest.1, rfl, rfl, rfl, rfl, rfl⟩
  refine ⟨rklReserveDecLocked_eq found (by omega) granted fun one => valid (single one).1, ?_⟩
  refine accounts.rewrite rewritten ?_ (Int.le_refl _) ?_ (fun key ne => ⟨rfl, update_of_ne ne _ _⟩)
    accounts.spans (fun get among => ⟨get, among, rfl, rfl, fun _ _ first => first⟩) ?_ ?_
  · refine listed.rewrite rewritten (listed.running_same found (by simp)) listed.runningNodup
      listed.runningCount (fun other => ?_) listed.unreserve_nodup
    · rw [unreserved_reserveCount]
      exact listed.unreserve_mem found (by omega) other
  · obtain ⟨first, last, firstPast, lastPast⟩ :=
      unreserved_times lock clock granted (by omega) sound.firstPast sound.lastPast
    refine ⟨?_, ?_, ?_, ?_, ?_, first, last, firstPast, lastPast, ?_⟩
    · simpa using sound.idle
    · simpa using sound.single
    · simpa [Ledger.settle] using sound.held
    · rw [unreserved_reserveCount, unreserved_rest.1, here, shorter]
      simp only [Ledger.settle]
      omega
    · simpa using sound.waiters
    · intro unheld get among
      rw [unreserved_rest.1] at unheld ⊢
      rw [here, unreserved_lastModifyingReleaseLtime]
      by_cases one : lock.reserveCount = 1
      · rw [if_pos one, (single one).2]
        have started := accounts.started get among
        refine iff_of_false not_mem_nil ?_
        simp only [LTIME_INVALID]
        omega
      · rw [if_neg one, mem_erase_of_ne (completed get among)]
        exact sound.since unheld get among
  · intro get among lonely key waits
    by_cases same : key = lock.key
    · rw [same, here] at waits
      exact accounts.alone get among lonely lock.key (mem_of_mem_erase waits)
    · exact accounts.alone get among lonely key (by simpa [Ledger.settle, same] using waits)
  · intro get among first
    rw [here, mem_erase_of_ne (completed get among)]
    exact accounts.pending_of_oldest found among first

/-- The holders of the entries are the same, and an entry that has one is still there. -/
structure SameHolders (before after : Container κ) : Prop where
  back : ∀ {address lock'}, after.heap address = some lock' → ∃ lock,
    before.heap address = some lock ∧ lock'.key = lock.key ∧ lock'.lockMode = lock.lockMode ∧
      lock'.lockCount = lock.lockCount
  forth : ∀ {address lock}, before.heap address = some lock → lock.lockCount ≠ 0 →
    ∃ lock', after.heap address = some lock'
  getList : after.getList = before.getList
  getCount : after.getCount = before.getCount
  nextAddress : after.nextAddress = before.nextAddress
  replicationType : after.replicationType = before.replicationType

omit [DecidableEq κ] in
theorem SameHolders.refl : SameHolders container container :=
  ⟨fun {_ lock} found => ⟨lock, found, rfl, rfl, rfl⟩, fun {_ lock} found _ => ⟨lock, found⟩, rfl, rfl,
    rfl, rfl⟩

omit [DecidableEq κ] in
theorem SameHolders.trans {middle after : Container κ} (first : SameHolders container middle)
    (second : SameHolders middle after) : SameHolders container after where
  back found := by
    obtain ⟨lock, between, key, mode, count⟩ := second.back found
    obtain ⟨lock₀, before, key₀, mode₀, count₀⟩ := first.back between
    exact ⟨lock₀, before, key.trans key₀, mode.trans mode₀, count.trans count₀⟩
  forth found holders := by
    obtain ⟨lock', between⟩ := first.forth found holders
    obtain ⟨lock₀, before, _, _, count⟩ := first.back between
    cases found.symm.trans before
    exact second.forth between (count ▸ holders)
  getList := second.getList.trans first.getList
  getCount := second.getCount.trans first.getCount
  nextAddress := second.nextAddress.trans first.nextAddress
  replicationType := second.replicationType.trans first.replicationType

/-- Every entry is needed. -/
def AllNeeded (container : Container κ) : Prop :=
  ∀ {address lock}, container.heap address = some lock → lock.Needed

/-- A get lets go of a key. -/
theorem Accounts.letGo (accounts : Accounts container gets book) (needed : AllNeeded container)
    (found : container.heap address = some lock) {span : ℕ}
    (pending : span ∈ book.pending lock.key) (completed : ∀ get ∈ gets, get.address ≠ span)
    (valid : book.held lock.key = false → lock.lastModifyingReleaseLtime ≠ LTIME_INVALID) :
    ∃ after, (rklReserveDecLocked container address).bind (rklCheckFreeLocked · address) =
        some after ∧ Accounts after gets (book.settle span lock.key) ∧ AllNeeded after ∧
      SameHolders container after ∧ ∀ other, other ≠ address →
        after.heap other = container.heap other := by
  obtain ⟨taken, settled⟩ := accounts.settle found pending completed valid
  have rewritten : Rewritten container (decremented container address lock) address lock
      lock.unreserved := ⟨found, unreserved_rest.1, rfl, rfl, rfl, rfl, rfl⟩
  have waiting := (needed found).2
  rw [taken, bind_some, rklCheckFreeLocked_eq settled rewritten.here]
  simp only [unreserved_rest, unreserved_reserveCount]
  by_cases unneeded : lock.lockCount = 0 ∧ lock.reserveCount - 1 = 0 ∧ lock.waitList = []
  · have before : ∀ {other entry},
        (freed (decremented container address lock) address lock.unreserved).heap other =
          some entry ↔ other ≠ address ∧ container.heap other = some entry := by
      intro other entry
      rw [freed_heap]
      exact and_congr_right fun ne => by rw [rewritten.elsewhere ne]
    refine ⟨_, congrArg some (if_pos unneeded), settled.free rewritten.here (by simp [unneeded.1])
      (by simp [unneeded.2.1]), fun there => needed (before.mp there).2,
      ⟨fun {_ entry} there => ⟨entry, (before.mp there).2, rfl, rfl, rfl⟩,
        fun {other entry} there holders => ⟨entry, before.mpr ⟨?_, there⟩⟩, rfl, rfl, rfl, rfl⟩,
      fun other ne => (update_of_ne ne _ _).trans (rewritten.elsewhere ne)⟩
    rintro rfl
    cases found.symm.trans there
    exact holders unneeded.1
  · refine ⟨_, congrArg some (if_neg unneeded), settled, fun {other entry} there => ?_,
      ⟨fun {other entry} there => ?_, fun {other entry} there _ => ?_, rfl, rfl, rfl, rfl⟩,
      fun other ne => rewritten.elsewhere ne⟩
    · rcases rewritten.newOrOld there with ⟨_, rfl⟩ | ⟨_, old⟩
      · simp only [KeyLock.Needed, unreserved_rest, unreserved_reserveCount]
        refine ⟨?_, waiting⟩
        by_contra idle
        rw [not_or, not_not, not_not] at idle
        exact unneeded ⟨idle.1, idle.2, not_imp_not.mp waiting idle.1⟩
      · exact needed old
    · rcases rewritten.newOrOld there with ⟨rfl, rfl⟩ | ⟨_, old⟩
      · exact ⟨lock, found, by simp⟩
      · exact ⟨entry, old, rfl, rfl, rfl⟩
    · exact rewritten.live.mpr ⟨entry, there⟩

/-- The keys that the walk of a completing get lets go of. -/
def chosenKeys (get : RklcGet) (endLtime : ℤ) (container : Container κ) (addresses : List ℕ) :
    List κ :=
  addresses.filterMap fun address =>
    (container.heap address).bind fun lock =>
      if get.overlaps endLtime lock then some lock.key else none

/-- The walk lets go of the keys a get was open for. -/
theorem completeWalk_spec (get : RklcGet) (endLtime : ℤ) {addresses : List ℕ}
    (accounts : Accounts container gets book) (needed : AllNeeded container)
    (nodup : addresses.Nodup)
    (live : ∀ address ∈ addresses, ∃ lock, container.heap address = some lock)
    (right : ∀ address ∈ addresses, ∀ lock, container.heap address = some lock →
      get.overlaps endLtime lock → get.address ∈ book.pending lock.key ∧
        (book.held lock.key = false → lock.lastModifyingReleaseLtime ≠ LTIME_INVALID))
    (completed : ∀ other ∈ gets, other.address ≠ get.address) :
    ∃ after, completeWalk get endLtime addresses container = some after ∧
      Accounts after gets ((chosenKeys get endLtime container addresses).foldl
        (fun current key => current.settle get.address key) book) ∧
      AllNeeded after ∧ SameHolders container after := by
  induction addresses generalizing container book with
  | nil => exact ⟨container, rfl, accounts, needed, .refl⟩
  | cons address rest ih =>
    obtain ⟨lock, found⟩ := live address mem_cons_self
    obtain ⟨apart, nodup⟩ := pairwise_cons.mp nodup
    have ne := fun other among => (apart other among).symm
    rw [completeWalk, found, bind_some]
    by_cases overlaps : get.overlaps endLtime lock
    · obtain ⟨pending, valid⟩ := right address mem_cons_self lock found overlaps
      obtain ⟨middle, taken, settled, needed', same, others⟩ :=
        accounts.letGo needed found pending completed valid
      have sameKeys : chosenKeys get endLtime middle rest =
          chosenKeys get endLtime container rest :=
        filterMap_congr fun other among => by rw [others other (ne other among)]
      obtain ⟨after, walked, settled', needed'', same'⟩ := ih settled needed' nodup
        (fun other among => by
          rw [others other (ne other among)]
          exact live other (mem_cons_of_mem address among))
        (fun other among entry there overlaps' => by
          rw [others other (ne other among)] at there
          obtain ⟨pending', valid'⟩ :=
            right other (mem_cons_of_mem address among) entry there overlaps'
          have otherKey : entry.key ≠ lock.key := fun sameKey =>
            ne other among (accounts.indexed.keyInjective there found sameKey)
          exact ⟨by simpa [Ledger.settle, otherKey] using pending', valid'⟩)
      refine ⟨after, ?_, ?_, needed'', same.trans same'⟩
      · rw [if_pos overlaps, taken, bind_some, walked]
      · rw [sameKeys] at settled'
        simpa [chosenKeys, found, overlaps] using settled'
    · obtain ⟨after, walked, settled', needed'', same'⟩ := ih accounts needed nodup
        (fun other among => live other (mem_cons_of_mem address among))
        (fun other among => right other (mem_cons_of_mem address among))
      refine ⟨after, ?_, ?_, needed'', same'⟩
      · rw [if_neg overlaps, bind_some, walked]
      · simpa [chosenKeys, found, overlaps] using settled'

end

/-- The loop of `rklc_start_get` adds a reservation to each lock on the list. -/
theorem reserveAll_spec {addresses : List ℕ} {heap : ℕ → Option (KeyLock κ)}
    (nodup : addresses.Nodup) (live : ∀ address ∈ addresses, ∃ lock, heap address = some lock) :
    reserveAll addresses heap = some fun address =>
      if address ∈ addresses then
        (heap address).map fun lock => { lock with reserveCount := lock.reserveCount + 1 }
      else heap address := by
  induction addresses generalizing heap with
  | nil => simp [reserveAll]
  | cons address rest ih =>
    obtain ⟨lock, found⟩ := live address mem_cons_self
    obtain ⟨fresh, nodup⟩ := nodup_cons.mp nodup
    have ne : ∀ other ∈ rest, other ≠ address := fun other among same => fresh (same ▸ among)
    rw [reserveAll, found, bind_some, ih nodup]
    · congr 1
      funext other
      by_cases same : other = address
      · subst same
        simp [fresh, found]
      · simp [same]
    · intro other among
      rw [update_of_ne (ne other among)]
      exact live other (mem_cons_of_mem address among)

/-- An entry at the start of a get: a modifying lock has one reservation more. -/
def KeyLock.bumped (lock : KeyLock κ) : KeyLock κ :=
  if lock.lockMode.modifying then { lock with reserveCount := lock.reserveCount + 1 } else lock

@[simp] theorem bumped_rest : lock.bumped.key = lock.key ∧
    lock.bumped.lockMode = lock.lockMode ∧ lock.bumped.lockCount = lock.lockCount ∧
    lock.bumped.waitList = lock.waitList ∧
    lock.bumped.firstModifyingGrantLtime = lock.firstModifyingGrantLtime ∧
    lock.bumped.lastModifyingReleaseLtime = lock.lastModifyingReleaseLtime := by
  unfold bumped
  split <;> exact ⟨rfl, rfl, rfl, rfl, rfl, rfl⟩

theorem bumped_reserveCount :
    lock.bumped.reserveCount = lock.reserveCount + lock.lockMode.modifying.toNat := by
  unfold bumped
  split
  · next modifying => simp [modifying]
  · next quiet => simp [quiet]

/-- The container after a get has started. -/
def Container.withGet (container : Container κ) : Container κ :=
  { container with
    currentLtime := container.currentLtime + 1
    heap := fun address => (container.heap address).map KeyLock.bumped
    nextAddress := container.nextAddress + 1
    getList := container.getList ++ [{
      address := container.nextAddress
      startLtime := container.currentLtime
      oldestOverlappingModify := container.runningModifyList.head? }]
    getCount := container.getCount + 1 }

open Container

/-- A get starts without a failed assertion. -/
theorem rklcStartGet_eq (listed : Listed container) :
    rklcStartGet container true = some (container.withGet, some container.nextAddress) := by
  have live : ∀ address ∈ container.runningModifyList, ∃ lock, container.heap address = some lock :=
    fun address running => ((listed.runningMem address).mp running).imp fun _ => And.left
  have heap : (fun address => if address ∈ container.runningModifyList then
      (container.heap address).map fun lock => { lock with reserveCount := lock.reserveCount + 1 }
      else container.heap address) = fun address => (container.heap address).map KeyLock.bumped := by
    funext address
    cases here : container.heap address with
    | none => simp
    | some lock =>
      by_cases running : address ∈ container.runningModifyList
      · obtain ⟨entry, there, modifying⟩ := (listed.runningMem address).mp running
        cases here.symm.trans there
        simp [running, bumped, modifying]
      · have quiet : ¬ lock.lockMode.modifying := fun modifying =>
          running ((listed.runningMem address).mpr ⟨lock, here, modifying⟩)
        simp [running, bumped, quiet]
  rw [rklcStartGet, if_neg (by simp), reserveAll_spec listed.runningNodup live, heap]
  rfl

theorem Indexed.start (indexed : Indexed container) : Indexed container.withGet where
  hashed key address := by
    refine (indexed.hashed key address).trans ?_
    simp only [withGet, map_eq_some_iff]
    constructor
    · rintro ⟨lock, found, keyed⟩
      exact ⟨lock.bumped, ⟨lock, found, rfl⟩, bumped_rest.1.trans keyed⟩
    · rintro ⟨_, ⟨lock, found, rfl⟩, keyed⟩
      exact ⟨lock, found, bumped_rest.1.symm.trans keyed⟩
  below address lock found := by
    obtain ⟨before, there, _⟩ := map_eq_some_iff.mp found
    exact Nat.lt_succ_of_lt (indexed.below address before there)
  allMem address := by
    refine (indexed.allMem address).trans ?_
    simp [withGet]
  allNodup := indexed.allNodup
  allCount := indexed.allCount

theorem Listed.start (listed : Listed container)
    (counted : ∀ {address lock}, container.heap address = some lock → lock.lockMode.modifying →
      0 < lock.reserveCount) : Listed container.withGet where
  runningMem address := by
    refine (listed.runningMem address).trans ?_
    simp [withGet]
  runningNodup := listed.runningNodup
  runningCount := listed.runningCount
  modifyMem address := by
    refine (listed.modifyMem address).trans ?_
    simp only [withGet, map_eq_some_iff]
    constructor
    · rintro ⟨lock, found, positive⟩
      exact ⟨lock.bumped, ⟨lock, found, rfl⟩, by rw [bumped_reserveCount]; omega⟩
    · rintro ⟨_, ⟨lock, found, rfl⟩, positive⟩
      refine ⟨lock, found, ?_⟩
      rw [bumped_reserveCount] at positive
      cases modifying : lock.lockMode.modifying with
      | true => exact counted found modifying
      | false => simpa [modifying] using positive
  modifyNodup := listed.modifyNodup

theorem LockSound.start {now : ℤ} {get : RklcGet} (sound : LockSound now gets book lock)
    (begins : get.startLtime = now) (unseen : get.address ∉ book.pending lock.key) :
    LockSound (now + 1) (gets ++ [get]) (book.start get.address) lock.bumped where
  idle := by simpa using sound.idle
  single := by simpa using sound.single
  held := by simpa [Ledger.start] using sound.held
  reserved := by
    rw [bumped_reserveCount, bumped_rest.1, sound.reserved]
    simp only [Ledger.start]
    cases modifying : lock.lockMode.modifying with
    | true =>
      rw [sound.held, modifying, if_pos rfl, length_append]
      rfl
    | false =>
      rw [sound.held, modifying]
      rfl
  waiters := by simpa using sound.waiters
  first := by
    simp only [bumped_rest, bumped_reserveCount, sound.first]
    cases modifying : lock.lockMode.modifying with
    | true =>
      have positive := (sound.reserved_of_modifying modifying).1
      omega
    | false => rfl
  last none := by
    rw [bumped_reserveCount] at none
    simpa using sound.last (by omega)
  firstPast := by simpa using Int.lt_trans sound.firstPast (Int.lt_succ now)
  lastPast := by simpa using Int.lt_trans sound.lastPast (Int.lt_succ now)
  since unheld other among := by
    have past := sound.lastPast
    simp only [bumped_rest, Ledger.start] at unheld ⊢
    rw [unheld, if_neg Bool.false_ne_true]
    rcases mem_append.mp among with before | new
    · exact sound.since unheld other before
    · rw [mem_singleton.mp new]
      exact iff_of_false unseen (by omega)

/-- A get starts. -/
theorem Accounts.start (accounts : Accounts container container.getList book)
    (fresh : container.nextAddress ∉ book.spans)
    (unseen : ∀ key, container.nextAddress ∉ book.pending key) :
    Accounts container.withGet container.withGet.getList (book.start container.nextAddress) := by
  have clock := accounts.clock
  have grows : ∀ {key span}, span ∈ book.pending key →
      span ∈ (book.start container.nextAddress).pending key := by
    intro key span pending
    simp only [Ledger.start]
    split
    · exact mem_append_left _ pending
    · exact pending
  refine ⟨accounts.indexed.start, accounts.listed.start fun found modifying => ?_, ?_, ?_, ?_, ?_, ?_,
    ?_, ?_⟩
  · have positive := ((accounts.locks found).reserved_of_modifying modifying).1
    omega
  · intro address lock' found
    obtain ⟨lock, before, rfl⟩ := map_eq_some_iff.mp found
    exact (accounts.locks before).start rfl (unseen lock.key)
  · simp only [withGet, map_append, accounts.spans]
    rfl
  · exact Int.le_trans clock (Int.le_add_one (Int.le_refl _))
  · intro get among
    rcases mem_append.mp among with before | new
    · have times := accounts.started get before
      exact ⟨times.1, Int.lt_trans times.2 (Int.lt_succ _)⟩
    · rw [mem_singleton.mp new]
      exact ⟨clock, Int.lt_succ _⟩
  · intro get among lonely key pending
    rcases mem_append.mp among with before | new
    · have known : get.address ∈ book.spans := accounts.spans ▸ mem_map_of_mem before
      have other : get.address ≠ container.nextAddress := fun same => fresh (same ▸ known)
      refine accounts.alone get before lonely key ?_
      simp only [Ledger.start] at pending
      split at pending
      · simpa [other] using pending
      · exact pending
    · rw [mem_singleton.mp new] at lonely pending
      -- no lock is running, so no key is held
      have unheld : book.held key = false := by
        cases hashed : container.hash key with
        | none => exact (accounts.absent key hashed).1
        | some address =>
          obtain ⟨lock, found, rfl⟩ := (accounts.indexed.hashed key address).mp hashed
          rw [(accounts.locks found).held, Bool.eq_false_iff]
          intro modifying
          have running := (accounts.listed.runningMem address).mpr ⟨lock, found, modifying⟩
          rw [head?_eq_none_iff.mp lonely] at running
          cases running
      simp only [Ledger.start, unheld] at pending
      exact unseen key pending
  · intro get among address first
    rcases mem_append.mp among with before | new
    · obtain ⟨lock, found, pending⟩ := accounts.oldest get before address first
      exact ⟨lock.bumped, by simp [withGet, found], by simpa using grows pending⟩
    · rw [mem_singleton.mp new] at first ⊢
      obtain ⟨lock, found, modifying⟩ :=
        (accounts.listed.runningMem address).mp (mem_of_mem_head? first)
      have held : book.held lock.key = true := (accounts.locks found).held.trans modifying
      exact ⟨lock.bumped, by simp [withGet, found], by simp [Ledger.start, held]⟩
  · intro key unhashed
    obtain ⟨unheld, nothing⟩ := accounts.absent key unhashed
    exact ⟨unheld, by simp [Ledger.start, unheld, nothing]⟩

end Zetascale.Replication
