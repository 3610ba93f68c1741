import Zetascale.Replication.Reservations

/-!
# Reservations along the calls

Every call that meets its contract succeeds in a sound world. `Clean` is what a
call asks of the world before it so that the reservations stay exact: a grant to
a modifier counts every unfinished get, and the walk of a completing get passes
every lock that it overlapped. A call that is not clean leaves a wrong count.
-/

namespace Zetascale.Replication

open Overlap Function List Option KeyLock

universe u

variable {κ : Type u} {world : World κ} {address : ℕ} {lock : KeyLock κ}

theorem NeededBut.rewrite {before after : Container κ} {lock' : KeyLock κ}
    (others : NeededBut before address) (rewritten : Rewritten before after address lock lock') :
    NeededBut after address :=
  fun ne there => others ne (rewritten.elsewhere ne ▸ there)

variable [DecidableEq κ]

section

variable {container : Container κ} {gets : List RklcGet} {book : Ledger κ ℕ} {key : κ}

/-- The container with a new entry. -/
def Container.allocate (container : Container κ) (key : κ) : Container κ :=
  { container with
    heap := update container.heap container.nextAddress (some (newKeyLock key))
    hash := update container.hash key (some container.nextAddress)
    nextAddress := container.nextAddress + 1
    allList := container.allList ++ [container.nextAddress]
    allListCount := container.allListCount + 1 }

theorem findOrAllocate_of_unhashed (unhashed : container.hash key = none) :
    findOrAllocate container key = (container.allocate key, container.nextAddress) := by
  rw [findOrAllocate, unhashed]
  rfl

omit [DecidableEq κ] in
theorem Indexed.ne_next (indexed : Indexed container)
    (found : container.heap address = some lock) : address ≠ container.nextAddress :=
  Nat.ne_of_lt (indexed.below address lock found)

omit [DecidableEq κ] in
theorem Indexed.vacant (indexed : Indexed container) :
    container.heap container.nextAddress = none :=
  eq_none_iff_forall_not_mem.mpr fun _ found => indexed.ne_next found rfl

/-- A key gets an entry. -/
theorem Indexed.allocate (indexed : Indexed container) (unhashed : container.hash key = none) :
    Indexed (container.allocate key) where
  hashed key' other := by
    simp only [Container.allocate]
    by_cases sameKey : key' = key
    · subst sameKey
      by_cases same : other = container.nextAddress
      · simp [same, newKeyLock]
      · rw [update_of_ne same, ← indexed.hashed, unhashed]
        simp [Ne.symm same]
    · rw [update_of_ne sameKey]
      by_cases same : other = container.nextAddress
      · rw [same, update_self]
        refine iff_of_false (fun hashed => ?_) (by simp [newKeyLock, Ne.symm sameKey])
        obtain ⟨lock, found, _⟩ := (indexed.hashed _ _).mp hashed
        exact indexed.ne_next found rfl
      · rw [update_of_ne same]
        exact indexed.hashed key' other
  below other entry here := by
    by_cases same : other = container.nextAddress
    · exact same ▸ Nat.lt_succ_self _
    · have before := (update_of_ne same _ _).symm.trans here
      exact Nat.lt_succ_of_lt (indexed.below other entry before)
  allMem other := by
    simp only [Container.allocate, mem_append, mem_singleton]
    by_cases same : other = container.nextAddress
    · simp [same]
    · rw [update_of_ne same, indexed.allMem]
      simp [same]
  allNodup := by
    refine indexed.allNodup.append (nodup_singleton _) (disjoint_singleton.mpr fun among => ?_)
    obtain ⟨lock, found⟩ := (indexed.allMem _).mp among
    exact indexed.ne_next found rfl
  allCount := by simp [Container.allocate, indexed.allCount]

theorem Accounts.allocate (accounts : Accounts container gets book)
    (unhashed : container.hash key = none) : Accounts (container.allocate key) gets book := by
  have indexed := accounts.indexed
  have listed := accounts.listed
  have clock := accounts.clock
  obtain ⟨unheld, nothing⟩ := accounts.absent key unhashed
  have here : (container.allocate key).heap container.nextAddress = some (newKeyLock key) :=
    update_self _ _ _
  have elsewhere : ∀ {other}, other ≠ container.nextAddress →
      (container.allocate key).heap other = container.heap other :=
    fun ne => update_of_ne ne _ _
  refine ⟨indexed.allocate unhashed, ⟨fun other => ?_, listed.runningNodup, listed.runningCount,
    fun other => ?_, listed.modifyNodup⟩, ?_, accounts.spans, clock, accounts.started,
    accounts.alone, ?_, ?_⟩
  · refine (listed.runningMem other).trans ?_
    by_cases same : other = container.nextAddress
    · simp [same, here, indexed.vacant, newKeyLock, RklMode.modifying]
    · rw [elsewhere same]
  · refine (listed.modifyMem other).trans ?_
    by_cases same : other = container.nextAddress
    · simp [same, here, indexed.vacant, newKeyLock]
    · rw [elsewhere same]
  · intro other entry there
    by_cases same : other = container.nextAddress
    · rw [same, here, some.injEq] at there
      subst there
      have past : LTIME_INVALID < container.currentLtime := by
        simp only [LTIME_INVALID]
        omega
      refine ⟨iff_of_true rfl rfl, (by cases ·), unheld, ?_, fun _ mem => (not_mem_nil mem).elim,
        iff_of_true rfl rfl, fun _ => rfl, past, past, fun _ get among => ?_⟩
      · simp [newKeyLock, unheld, nothing]
      · have started := accounts.started get among
        simp only [newKeyLock, nothing, not_mem_nil, false_iff, LTIME_INVALID]
        omega
    · exact accounts.locks (elsewhere same ▸ there)
  · intro get among other first
    obtain ⟨entry, there, pending⟩ := accounts.oldest get among other first
    exact ⟨entry, (elsewhere (indexed.ne_next there)).trans there, pending⟩
  · intro key' unhashed'
    refine accounts.absent key' ?_
    by_cases same : key' = key
    · exact same ▸ unhashed
    · exact (update_of_ne same _ _).symm.trans unhashed'

end

/-- Every key has an entry when it is locked. -/
theorem Sound.find (sound : Sound world) (key : κ) : ∃ lock,
    (findOrAllocate world.container key).1.heap (findOrAllocate world.container key).2 = some lock ∧
    lock.key = key ∧ Steady (world.become (findOrAllocate world.container key).1) ∧
    NeededBut (findOrAllocate world.container key).1 (findOrAllocate world.container key).2 ∧
    (lock.waitList ≠ [] → lock.lockCount ≠ 0) ∧
    (findOrAllocate world.container key).1.getList = world.container.getList ∧
    (findOrAllocate world.container key).1.replicationType = world.container.replicationType ∧
    (world.container.hash key = some (findOrAllocate world.container key).2 ∧
        world.container.heap (findOrAllocate world.container key).2 = some lock ∨
      world.container.hash key = none ∧ lock.reserveCount = 0) := by
  cases hashed : world.container.hash key with
  | some address =>
    obtain ⟨lock, found, keyed⟩ := (sound.accounts.indexed.hashed key address).mp hashed
    have same : findOrAllocate world.container key = (world.container, address) := by
      rw [findOrAllocate, hashed]
    rw [same]
    exact ⟨lock, found, keyed, sound.toSteady, fun _ there => sound.needed there,
      (sound.needed found).2, rfl, rfl, .inl ⟨rfl, found⟩⟩
  | none =>
    have indexed := sound.accounts.indexed
    rw [findOrAllocate_of_unhashed hashed]
    have elsewhere : ∀ {other}, other ≠ world.container.nextAddress →
        (world.container.allocate key).heap other = world.container.heap other :=
      fun ne => update_of_ne ne _ _
    have here : (world.container.allocate key).heap world.container.nextAddress =
        some (newKeyLock key) := update_self _ _ _
    refine ⟨newKeyLock key, here, rfl, ⟨sound.accounts.allocate hashed, sound.counted,
      sound.distinct, fun span beyond => sound.unseen span (Nat.le_of_succ_le beyond),
      ⟨fun handle among => ?_, fun {other lock} there => ?_⟩⟩, ?_, fun some => absurd rfl some, rfl, rfl, .inr ⟨rfl, rfl⟩⟩
    · obtain ⟨lock, found, keyed⟩ := sound.held.live handle among
      exact ⟨lock, (elsewhere (indexed.ne_next found)).trans found, keyed⟩
    · by_cases same : other = world.container.nextAddress
      · rw [same] at there ⊢
        rw [World.become, here, some.injEq] at there
        rw [← there]
        refine countP_eq_zero.mpr fun handle among there => ?_
        obtain ⟨lock, found, _⟩ := sound.held.live handle among
        exact indexed.ne_next found (of_decide_eq_true there)
      · exact sound.held.count ((elsewhere same).symm.trans there)
    · intro other lock ne there
      exact sound.needed ((elsewhere ne).symm.trans there)

/-- What a call asks of the world so that the reservations stay exact. -/
def Clean (world : World κ) : Call κ → Prop
  -- an exclusive lock on a key that is still reserved
  | .lock key lockMode _ _ => ∀ address lock, world.container.hash key = some address →
      world.container.heap address = some lock → lock.lockCount = 0 → lockMode = .exclusive →
        Regrant world.container.getList lock
  -- the last reader of a key that is still reserved makes way for a modifier
  | .unlock address => ∀ lock waiter, world.container.heap address = some lock →
      lock.lockMode = .shared → lock.lockCount = 1 → lock.waitList.head? = some waiter →
        waiter.lockMode.modifying → Regrant world.container.getList lock
  | .startGet _ => True
  -- every lock that was held during the get lies on its way, with a release time it can see
  | .getComplete address => ∀ get ∈ world.container.getList, get.address = address →
      ∀ other lock, world.container.heap other = some lock →
        (lock.lockMode.modifying ∨ get.startLtime < lock.lastModifyingReleaseLtime) →
          (∃ passed, modifyListFrom world.container.modifyList get.oldestOverlappingModify =
            some passed ∧ other ∈ passed) ∧
          (lock.lastModifyingReleaseLtime = LTIME_INVALID ∨
            get.startLtime < lock.lastModifyingReleaseLtime)

/-- A call succeeds, keeps everything sound if it is clean, and is clean if the counts are right
after it. -/
def Settles (world : World κ) (call : Call κ) : Prop :=
  ∃ next, step world call = some next ∧ (Clean world call → Sound next) ∧
    ((∀ key, reservations next.container key = owed next key) → Clean world call)

variable {lockMode : RklMode}

/-- A lock passes its assertions. -/
theorem Steady.asserted (steady : Steady world) (found : world.container.heap address = some lock)
    (once : world.container.replicationType ≠ .v12Way →
      lockMode = .recovery → ∀ handle ∈ world.handles, handle.key = lock.key →
        handle.lockMode ≠ .recovery) :
    lock.asserted world.container.replicationType lockMode = true := by
  have sound := steady.accounts.locks found
  rw [KeyLock.asserted, decide_eq_true_iff]
  refine ⟨not_congr sound.idle.symm, fun exclusive => ?_, fun exclusive => ?_, ?_⟩
  · exact sound.single (by rw [exclusive]; rfl)
  · have reserved := (sound.reserved_of_modifying (by rw [exclusive]; rfl)).1
    omega
  · rintro ⟨other, recovering⟩ again
    have one : lock.lockCount = 1 := sound.single (by rw [recovering]; rfl)
    have count := steady.held.count found
    obtain ⟨handle, among, same⟩ := countP_pos_iff.mp (by rw [count, one]; exact Nat.one_pos)
    obtain rfl := of_decide_eq_true same
    obtain ⟨keyed, moded, _⟩ := steady.held.entry among found
    exact once other again handle among keyed (moded.trans recovering)

/-- The world after `rklc_lock` has answered. -/
def World.answered (world : World κ) (key : κ) (lockMode : RklMode) (outcome : LockOutcome κ) :
    World κ :=
  if outcome.status = some .success then
    (world.become outcome.container).record outcome.address key lockMode
  else world.become outcome.container

theorem Steady.soundAfter {before : Container κ} {lock' : KeyLock κ} (steady : Steady world)
    (rewritten : Rewritten before world.container address lock lock')
    (others : NeededBut before address) (busy : lock'.lockCount ≠ 0) : Sound world :=
  steady.sound_of_needed (others.rewrite rewritten) rewritten.here (needed_of_busy busy)

/-- The next world is sound if the call was clean, and the counts are right in it only then. -/
def World.Judges (next : World κ) (clean : Prop) : Prop :=
  (clean → Sound next) ∧ ((∀ key, reservations next.container key = owed next key) → clean)

/-- A request joins the wait list of an entry. -/
theorem Steady.enqueue (steady : Steady world) (found : world.container.heap address = some lock)
    (proper : lockMode ≠ .none) (cb : ℕ) : Steady (world.become (world.container.put address
      { lock with waitList := lock.waitList ++ [⟨lockMode, cb⟩] })) := by
  have sound := steady.accounts.locks found
  have rewritten :=
    Rewritten.put { lock with waitList := lock.waitList ++ [⟨lockMode, cb⟩] } found rfl
  refine ⟨?_, steady.counted, steady.distinct, steady.unseen, steady.held.same ?_ ?_⟩
  · refine steady.accounts.put found rfl sound.idle sound.single ?_
    exact forall_mem_append.mpr ⟨sound.waiters, forall_mem_singleton.mpr proper⟩
  · intro other entry there
    rcases rewritten.newOrOld there with ⟨rfl, rfl⟩ | ⟨_, old⟩
    · exact ⟨lock, found, rfl, rfl, rfl⟩
    · exact ⟨entry, old, rfl, rfl, rfl⟩
  · intro other entry there _
    exact rewritten.live.mpr ⟨entry, there⟩

/-- The decision of `rklc_lock` about an entry. -/
theorem decideLock_settles (steady : Steady world)
    (found : world.container.heap address = some lock) (others : NeededBut world.container address)
    (waits : lock.waitList ≠ [] → lock.lockCount ≠ 0)
    (proper : lockMode ≠ .none) (cb : ℕ) (waiterAllocated : Bool) :
    ∃ outcome, decideLock world.container address lock lockMode cb waiterAllocated =
        some outcome ∧ (world.answered lock.key lockMode outcome).Judges
      (lock.lockCount = 0 → lockMode = .exclusive → Regrant world.container.getList lock) := by
  have sound := steady.accounts.locks found
  rw [decideLock]
  by_cases refused : lockMode = .recovery ∧ 0 < lock.reserveCount
  · rw [if_pos refused]
    refine ⟨_, rfl, fun _ => steady.sound_of_needed others found
      ⟨.inr (Nat.ne_of_gt refused.2), waits⟩, fun _ _ exclusive => ?_⟩
    rw [exclusive] at refused
    cases refused.1
  rw [if_neg refused]
  by_cases free : lock.lockCount = 0
  · rw [if_pos free]
    have idle := sound.idle.mp free
    have here : (world.container.put address
        { lock with lockMode := lockMode, lockCount := 1 }).heap address =
        some { lock with lockMode := lockMode, lockCount := 1 } := update_self _ _ _
    by_cases modifying : lockMode.modifying
    · have rewritten := rewritten_grantedTo lockMode lock.waitList found
      refine ⟨⟨grantedTo world.container address lock lockMode lock.waitList, address,
        some .success⟩, ?_, fun regrant => ?_, fun counts _ _ => ?_⟩
      · rw [rklGrantedLocked_modifying modifying here rfl]
        rfl
      · have allowed : Regrant world.container.getList lock := by
          cases lockMode with
          | none => cases modifying
          | shared => cases modifying
          | exclusive => exact regrant free rfl
          | recovery => exact .inl (Nat.eq_zero_of_not_pos fun some => refused ⟨rfl, some⟩)
        exact (steady.grantModifying found idle modifying sound.waiters allowed).soundAfter
          rewritten others Nat.one_ne_zero
      · exact steady.regrant_of_counts found idle modifying (counts lock.key)
    · obtain rfl := RklMode.eq_shared proper modifying
      have granted := steady.grantShared found (fun busy => absurd idle busy) sound.waiters
      rw [free] at granted
      refine ⟨⟨world.container.put address { lock with lockMode := .shared, lockCount := 1 }, address,
        some .success⟩, ?_, fun _ => granted.soundAfter (.put _ found rfl) others Nat.one_ne_zero,
        fun _ _ exclusive => by cases exclusive⟩
      rw [rklGrantedLocked, here]
      rfl
  rw [if_neg free]
  refine Exists.imp (fun outcome => And.imp_right fun sound =>
    ⟨fun _ => sound, fun _ none => absurd none free⟩) ?_
  by_cases both : lock.lockMode = .shared ∧ lockMode = .shared
  · rw [if_pos both]
    obtain ⟨shared, rfl⟩ := both
    have same : ({ lock with lockCount := lock.lockCount + 1 } : KeyLock κ) =
        { lock with lockMode := .shared, lockCount := lock.lockCount + 1 } := by rw [← shared]
    have granted := steady.grantShared found (fun _ => shared) sound.waiters
    have rewritten := Rewritten.put
      { lock with lockMode := .shared, lockCount := lock.lockCount + 1 } found rfl
    rw [same, rklGrantedLocked, rewritten.here]
    exact ⟨_, rfl, granted.soundAfter rewritten others (Nat.succ_ne_zero _)⟩
  rw [if_neg both]
  cases waiterAllocated with
  | false => exact ⟨_, rfl, steady.sound_of_needed others found (needed_of_busy free)⟩
  | true =>
    exact ⟨_, rfl, (steady.enqueue found proper cb).soundAfter (.put _ found rfl) others free⟩

/-- A lock is granted, queued or refused. -/
theorem lock_settles (sound : Sound world) {key : κ} {cb : ℕ}
    {waiterAllocated : Bool} (contract : Contract world (.lock key lockMode cb waiterAllocated)) :
    Settles world (.lock key lockMode cb waiterAllocated) := by
  obtain ⟨lock, found, rfl, steady, others, waits, gets, type, back⟩ := sound.find key
  obtain ⟨outcome, decided, keeps, clean⟩ :=
    decideLock_settles steady found others waits contract.1 cb waiterAllocated
  have live : ¬ ((world.container.hash lock.key).bind world.container.heap).any
      (fun lock => lock.lockMode = .none ∧ lock.reserveCount = 0) = true := by
    rw [Option.any_eq_true]
    rintro ⟨entry, there, idle⟩
    rw [decide_eq_true_iff] at idle
    obtain ⟨other, _, there⟩ := bind_eq_some_iff.mp there
    rcases (sound.needed there).1 with holder | reservation
    · exact holder ((sound.accounts.locks there).idle.mpr idle.1)
    · exact reservation idle.2
  have asserted : lock.asserted world.container.replicationType lockMode = true := by
    rw [← type]
    exact steady.asserted found (type ▸ contract.2)
  refine ⟨world.answered lock.key lockMode outcome, ?_, fun isClean => keeps ?_, fun counts => ?_⟩
  · have taken : rklcLock world.container lock.key lockMode cb waiterAllocated = some outcome := by
      rw [rklcLock, if_neg contract.1, if_neg live]
      simp only [found, bind_some, asserted, not_true_eq_false, if_false]
      exact decided
    rw [step, taken]
    rfl
  · intro free exclusive
    rcases back with ⟨hashed, there⟩ | ⟨_, none⟩
    · rw [show (world.become _).container.getList = _ from gets]
      exact isClean _ lock hashed there free exclusive
    · exact .inl none
  · intro address' lock' hashed there free exclusive
    rcases back with ⟨hashed', there'⟩ | ⟨unhashed, _⟩
    · cases hashed'.symm.trans hashed
      cases there'.symm.trans there
      have regrant := clean counts free exclusive
      rw [show (world.become _).container.getList = _ from gets] at regrant
      exact regrant
    · cases unhashed.symm.trans hashed

variable {waits : List KeyLockWait}

/-- The loop over the wait list while the entry is held: further readers join a reader. -/
theorem grantWaiters_busy (steady : Steady world)
    (found : world.container.heap address = some lock) (queue : lock.waitList = waits)
    (others : NeededBut world.container address) (busy : lock.lockCount ≠ 0) :
    ∃ after granted, grantWaiters address waits world.container = some (after, granted) ∧
      Sound ((world.become after).recordAll address lock.key granted) := by
  have stays := steady.sound_of_needed others found (needed_of_busy busy)
  induction waits generalizing world lock with
  | nil => exact ⟨world.container, [], rfl, stays⟩
  | cons waiter rest ih =>
    rw [grantWaiters, found, bind_some, if_neg busy]
    by_cases both : lock.lockMode = .shared ∧ waiter.lockMode = .shared
    · rw [if_pos both]
      have waiters := (steady.accounts.locks found).waiters
      rw [queue] at waiters
      have granted := steady.grantShared found (fun _ => both.1)
        fun other among => waiters other (mem_cons_of_mem waiter among)
      have same : ({ lock with lockCount := lock.lockCount + 1, waitList := rest } : KeyLock κ) =
          { lock with lockMode := .shared, lockCount := lock.lockCount + 1, waitList := rest } := by
        rw [← both.1]
      have rewritten := Rewritten.put
        { lock with lockMode := .shared, lockCount := lock.lockCount + 1, waitList := rest } found rfl
      obtain ⟨after, grants, looped, sound⟩ := ih granted rewritten.here rfl
        (others.rewrite rewritten) (Nat.succ_ne_zero _)
        (granted.soundAfter rewritten others (Nat.succ_ne_zero _))
      have looped' : grantWaiters address rest (world.container.put address
          { lock with lockMode := .shared, lockCount := lock.lockCount + 1, waitList := rest }) =
          some (after, grants) := looped
      refine ⟨after, waiter :: grants, ?_, ?_⟩
      · rw [same, rklGrantedLocked, rewritten.here]
        simp [looped']
      · rw [World.recordAll, foldl_cons, both.2]
        exact sound
    · rw [if_neg both]
      exact ⟨world.container, [], rfl, stays⟩

omit [DecidableEq κ] in
/-- A modifier that has been granted the entry ends the loop. -/
theorem grantWaiters_modifying {container : Container κ}
    (found : container.heap address = some lock) (modifying : lock.lockMode.modifying)
    (busy : lock.lockCount ≠ 0) : grantWaiters address waits container = some (container, []) := by
  cases waits with
  | nil => rfl
  | cons waiter rest =>
    have notShared : ¬ (lock.lockMode = .shared ∧ waiter.lockMode = .shared) := by
      rintro ⟨shared, _⟩
      rw [shared] at modifying
      cases modifying
    rw [grantWaiters, found, bind_some, if_neg busy, if_neg notShared]

/-- The end of `rkl_unlock`, once the holder has gone. -/
def passOn (container : Container κ) (address : ℕ) (lock : KeyLock κ) :
    Option (Container κ × List KeyLockWait) :=
  if lock.lockCount = 0 ∧ lock.waitList = [] then
    (rklCheckFreeLocked container address).map fun freed => (freed, [])
  else grantWaiters address lock.waitList container

variable (steady : Steady world) (found : world.container.heap address = some lock)

include steady found

theorem Steady.free (others : NeededBut world.container address) (unlocked : lock.lockCount = 0)
    (unreserved : lock.reserveCount = 0) :
    Sound (world.become (freed world.container address lock)) := by
  have held : Held (freed world.container address lock) world.handles := by
    refine steady.held.same (fun {_ entry} there => ⟨entry, (freed_heap.mp there).2, rfl, rfl, rfl⟩)
      fun {other entry} there busy => ⟨entry, freed_heap.mpr ⟨?_, there⟩⟩
    rintro rfl
    cases found.symm.trans there
    exact busy unlocked
  exact ⟨⟨steady.accounts.free found unlocked unreserved, steady.counted, steady.distinct,
    steady.unseen, held⟩, fun there => others (freed_heap.mp there).1 (freed_heap.mp there).2⟩

/-- The first waiter is granted an entry that nobody holds. -/
theorem grantWaiters_free {waiter : KeyLockWait} {rest : List KeyLockWait}
    (queue : lock.waitList = waiter :: rest) (others : NeededBut world.container address)
    (idle : lock.lockMode = .none) :
    ∃ after granted, grantWaiters address (waiter :: rest) world.container = some (after, granted) ∧
      ((world.become after).recordAll address lock.key granted).Judges
        (waiter.lockMode.modifying → Regrant world.container.getList lock) := by
  have sound := steady.accounts.locks found
  have free := sound.idle.mpr idle
  have waiters := sound.waiters
  rw [queue] at waiters
  have waiters' : ∀ other ∈ rest, other.lockMode ≠ .none :=
    fun other among => waiters other (mem_cons_of_mem waiter among)
  have here : (world.container.put address
      { lock with lockMode := waiter.lockMode, lockCount := 1, waitList := rest }).heap address =
      some { lock with lockMode := waiter.lockMode, lockCount := 1, waitList := rest } :=
    update_self _ _ _
  rw [grantWaiters, found, bind_some, if_pos free]
  by_cases modifying : waiter.lockMode.modifying
  · have rewritten := rewritten_grantedTo waiter.lockMode rest found
    have ended : grantWaiters address rest
        (grantedTo world.container address lock waiter.lockMode rest) =
        some (grantedTo world.container address lock waiter.lockMode rest, []) :=
      grantWaiters_modifying rewritten.here modifying Nat.one_ne_zero
    refine ⟨grantedTo world.container address lock waiter.lockMode rest, [waiter], ?_,
      fun regrant => ?_, fun counts _ => ?_⟩
    · rw [rklGrantedLocked_modifying modifying here rfl, bind_some]
      exact congrArg (Option.map _) ended
    · exact (steady.grantModifying found idle modifying waiters' (regrant modifying)).soundAfter
        rewritten others Nat.one_ne_zero
    · exact steady.regrant_of_counts found idle modifying (counts lock.key)
  · have shared := RklMode.eq_shared (waiters waiter mem_cons_self) modifying
    rw [shared] at here ⊢
    have granted := steady.grantShared found (fun busy => absurd idle busy) waiters'
    rw [free] at granted
    obtain ⟨after, grants, looped, sound'⟩ := grantWaiters_busy granted here rfl
      (others.rewrite (.put { lock with lockMode := .shared, lockCount := 1, waitList := rest }
        found rfl)) Nat.one_ne_zero
    have looped' : grantWaiters address rest (world.container.put address
        { lock with lockMode := .shared, lockCount := 1, waitList := rest }) =
        some (after, grants) := looped
    refine ⟨after, waiter :: grants, ?_, fun _ => ?_, nofun⟩
    · rw [rklGrantedLocked, here]
      simp [looped']
    · rw [World.recordAll, foldl_cons, shared]
      exact sound'

/-- A free entry goes to its waiters. -/
theorem passOn_settles (others : NeededBut world.container address) :
    ∃ after granted, passOn world.container address lock = some (after, granted) ∧
      ((world.become after).recordAll address lock.key granted).Judges
        (lock.lockCount = 0 → ∀ waiter, lock.waitList.head? = some waiter →
          waiter.lockMode.modifying → Regrant world.container.getList lock) := by
  have sound := steady.accounts.locks found
  rw [passOn]
  by_cases busy : lock.lockCount ≠ 0
  · obtain ⟨after, granted, looped, sound⟩ := grantWaiters_busy steady found rfl others busy
    rw [if_neg fun idle => busy idle.1]
    exact ⟨after, granted, looped, fun _ => sound, fun _ free => absurd free busy⟩
  rw [not_not] at busy
  have idle := sound.idle.mp busy
  cases queue : lock.waitList with
  | nil =>
    rw [if_pos ⟨busy, rfl⟩, rklCheckFreeLocked_eq steady.accounts found]
    refine ⟨_, [], rfl, fun _ => ?_, nofun⟩
    by_cases unreserved : lock.reserveCount = 0
    · rw [if_pos ⟨busy, unreserved, queue⟩]
      exact steady.free found others busy unreserved
    · rw [if_neg fun unneeded => unreserved unneeded.2.1]
      exact steady.sound_of_needed others found
        ⟨.inr unreserved, fun waiting => absurd queue waiting⟩
  | cons waiter rest =>
    rw [if_neg fun empty => nomatch empty.2]
    obtain ⟨after, granted, looped, keeps, clean⟩ :=
      grantWaiters_free steady found queue others idle
    refine ⟨after, granted, looped, fun regrant => keeps (regrant busy waiter rfl), ?_⟩
    intro counts _ first same modifying
    rw [head?_cons, some.injEq] at same
    exact clean counts (same ▸ modifying)

end Zetascale.Replication
