import Zetascale.Replication.ReservationCalls

/-!
# Exact reservations in every run

The release of a lock and the completion of a get, and from them, by induction
over the calls, what holds in every state of a run. The reservations are exact
throughout just in case every call of the run is clean. Two short runs show what
happens otherwise.
-/

namespace Zetascale.Replication

open Overlap List Option World Machine

universe u

variable {κ : Type u} [DecidableEq κ] {world : World κ} {address : ℕ} {lock : KeyLock κ}
  {handle : Handle κ}

theorem Steady.returnModifying (steady : Steady world)
    (among : handle ∈ world.handles) (found : world.container.heap handle.address = some lock)
    (modifying : lock.lockMode.modifying) :
    Steady ((world.become ((released world.container handle.address
      { lock with lockCount := 0 }).put handle.address
        (lock.letGo world.container.currentLtime))).returned handle) := by
  have sound := steady.accounts.locks found
  obtain ⟨keyed, moded, busy⟩ := steady.held.entry among found
  have holds : handle.lockMode.modifying = true := by rw [moded]; exact modifying
  have event : Fresh world.history (.released handle.key) := trivial
  have full : ∀ get ∈ world.container.getList,
      get.address ∈ (ledger world.history).pending lock.key := by
    intro get pending
    rw [(regular_ledger steady.distinct).full lock.key (sound.held.trans modifying),
      ← steady.accounts.spans]
    exact mem_map_of_mem pending
  have rewritten := rewritten_letGo world.container.currentLtime found
  refine ⟨?_, steady.counted, ?_, ?_, ?_⟩
  · simp only [returned, become, holds, if_true]
    rw [ledger_cons steady.distinct event, keyed]
    exact steady.accounts.release found modifying full
  · simp only [returned, become, holds, if_true]
    exact unfinished_cons_nodup steady.distinct event
  · intro span beyond
    simp only [returned, become, holds, if_true]
    exact (steady.unseen span beyond).cons (by simp)
  · refine steady.held.giveBack rewritten ?_ ?_ among
    · simp [KeyLock.letGo]
    · simp [KeyLock.letGo, sound.single modifying]

/-- The entry after one of its readers has gone. -/
def KeyLock.letRead (lock : KeyLock κ) : KeyLock κ :=
  { lock with
    lockMode := if lock.lockCount - 1 = 0 then .none else lock.lockMode
    lockCount := lock.lockCount - 1 }

open KeyLock

theorem Steady.returnShared (steady : Steady world)
    (among : handle ∈ world.handles) (found : world.container.heap handle.address = some lock)
    (shared : lock.lockMode = .shared) :
    Steady ((world.become (world.container.put handle.address lock.letRead)).returned handle) := by
  have sound := steady.accounts.locks found
  obtain ⟨keyed, moded, busy⟩ := steady.held.entry among found
  have holds : handle.lockMode.modifying = false := by rw [moded, shared]; rfl
  have calm : (if lock.lockCount - 1 = 0 then RklMode.none else lock.lockMode).modifying =
      lock.lockMode.modifying := by
    rw [shared]
    split <;> rfl
  refine ⟨?_, steady.counted, ?_, ?_,
    steady.held.giveBack (.put lock.letRead found rfl) (fun left => if_neg left) rfl among⟩
  · simp only [returned, become, holds, Bool.false_eq_true, if_false]
    refine steady.accounts.put found calm ?_ (fun modifies => ?_) sound.waiters
    · by_cases none : lock.lockCount - 1 = 0
      · simp [none]
      · simp [none, shared]
    · rw [calm, shared] at modifies
      cases modifies
  · simp only [returned, become, holds, Bool.false_eq_true, if_false]
    exact steady.distinct
  · simp only [returned, become, holds, Bool.false_eq_true, if_false]
    exact steady.unseen

theorem rklUnlock_modifying (steady : Steady world)
    (found : world.container.heap address = some lock) (modifying : lock.lockMode.modifying) :
    rklUnlock world.container address =
      passOn ((released world.container address { lock with lockCount := 0 }).put address
        (lock.letGo world.container.currentLtime)) address
        (lock.letGo world.container.currentLtime) := by
  have sound := steady.accounts.locks found
  have one := sound.single modifying
  have proper : ¬ (lock.lockMode = .none ∨ lock.lockCount = 0 ∨
      (1 < lock.lockCount ∧ lock.lockMode ≠ .shared)) := by
    rw [one, ← sound.idle, one]
    simp
  have here : (released world.container address { lock with lockCount := 0 }).heap address =
      some (KeyLock.unreserved { lock with
        lockCount := 0, lastModifyingReleaseLtime := world.container.currentLtime }) :=
    Function.update_self _ _ _
  have gone : (if (KeyLock.unreserved { lock with
      lockCount := 0, lastModifyingReleaseLtime := world.container.currentLtime }).lockCount = 0
      then { KeyLock.unreserved { lock with
        lockCount := 0, lastModifyingReleaseLtime := world.container.currentLtime } with
        lockMode := .none }
      else KeyLock.unreserved { lock with
        lockCount := 0, lastModifyingReleaseLtime := world.container.currentLtime }) =
      lock.letGo world.container.currentLtime := if_pos unreserved_rest.2.2.1
  rw [rklUnlock, found, bind_some, if_neg proper]
  simp only [modifying, if_true, one, Nat.sub_self]
  rw [releaseModifying_eq steady.accounts found modifying, bind_some, here, bind_some]
  simp only [gone]
  rfl

theorem rklUnlock_shared (steady : Steady world)
    (found : world.container.heap address = some lock) (shared : lock.lockMode = .shared) :
    rklUnlock world.container address =
      passOn (world.container.put address lock.letRead) address lock.letRead := by
  have sound := steady.accounts.locks found
  have proper : ¬ (lock.lockMode = .none ∨ lock.lockCount = 0 ∨
      (1 < lock.lockCount ∧ lock.lockMode ≠ .shared)) := by
    rw [sound.idle, shared]
    simp
  have calm : lock.lockMode.modifying = false := by rw [shared]; rfl
  have here : (world.container.put address { lock with lockCount := lock.lockCount - 1 }).heap
      address = some { lock with lockCount := lock.lockCount - 1 } := Function.update_self _ _ _
  have gone : (if lock.lockCount - 1 = 0 then
      { lock with lockMode := .none, lockCount := lock.lockCount - 1 }
      else { lock with lockCount := lock.lockCount - 1 }) = lock.letRead := by
    unfold letRead
    split <;> rfl
  have twice : (world.container.put address { lock with lockCount := lock.lockCount - 1 }).put
      address lock.letRead = world.container.put address lock.letRead := by
    simp [Container.put]
  rw [rklUnlock, found, bind_some, if_neg proper]
  simp only [calm, Bool.false_eq_true, if_false, bind_some, here, gone, twice]
  rfl

/-- A lock is given back. -/
theorem unlock_settles (sound : Sound world) (among : handle ∈ world.handles)
    (first : world.handles.find? (·.address = handle.address) = some handle) :
    Settles world (.unlock handle.address) := by
  obtain ⟨lock, found, _⟩ := sound.held.live handle among
  obtain ⟨keyed, moded, busy⟩ := sound.held.entry among found
  have entry := sound.accounts.locks found
  by_cases modifying : lock.lockMode.modifying
  · have rewritten := rewritten_letGo world.container.currentLtime found
    obtain ⟨after, granted, passed, keeps, _⟩ := passOn_settles
      (sound.returnModifying among found modifying) rewritten.here
      (NeededBut.rewrite (fun _ => sound.needed) rewritten)
    refine ⟨((world.become after).returned handle).recordAll handle.address handle.key granted, ?_,
      fun _ => ?_, fun _ lock' waiter there shared => ?_⟩
    · have taken : rklUnlock world.container handle.address = some (after, granted) :=
        (rklUnlock_modifying sound.toSteady found modifying).trans passed
      rw [step, first, bind_some, taken]
      rfl
    · rw [keyed, ← rewritten.key]
      refine keeps fun _ _ _ _ => ?_
      -- the release is the latest event, so every unfinished get began before it
      by_cases last : lock.reserveCount = 1
      · exact .inl (by simp [letGo, last])
      · refine .inr fun get pending => ?_
        have started := sound.accounts.started get pending
        simp only [letGo, unreserved_lastModifyingReleaseLtime, if_neg last]
        exact started.2
    · cases found.symm.trans there
      rw [shared] at modifying
      cases modifying
  · have shared := RklMode.eq_shared (fun idle => busy (entry.idle.mpr idle)) modifying
    have rewritten := Rewritten.put lock.letRead found rfl
    obtain ⟨after, granted, passed, keeps, clean⟩ := passOn_settles
      (sound.returnShared among found shared) rewritten.here
      (NeededBut.rewrite (fun _ => sound.needed) rewritten)
    have target : (((world.become (world.container.put handle.address lock.letRead)).returned
        handle).become after).recordAll handle.address lock.letRead.key granted =
        ((world.become after).returned handle).recordAll handle.address handle.key granted := by
      rw [rewritten.key, ← keyed]
      rfl
    rw [target] at keeps clean
    refine ⟨_, ?_, fun isClean => keeps fun none waiter head modifies => ?_,
      fun counts lock' waiter there _ one head modifies => ?_⟩
    · have taken : rklUnlock world.container handle.address = some (after, granted) :=
        (rklUnlock_shared sound.toSteady found shared).trans passed
      rw [step, first, bind_some, taken]
      rfl
    · have one : lock.lockCount = 1 := by
        have gone : lock.lockCount - 1 = 0 := none
        omega
      exact isClean lock waiter found shared one head modifies
    · cases found.symm.trans there
      exact clean counts (by simp [letRead, one]) waiter head modifies

/-- A get starts. -/
theorem startGet_settles (sound : Sound world) (allocated : Bool) :
    Settles world (.startGet allocated) := by
  cases allocated with
  | false => exact ⟨world, rfl, fun _ => sound, fun _ => trivial⟩
  | true =>
    have unseen := sound.unseen world.container.nextAddress (Nat.le_refl _)
    have event : Fresh world.history (.started world.container.nextAddress) := unseen
    refine ⟨⟨world.container.withGet, world.handles,
      .started world.container.nextAddress :: world.history⟩, ?_, fun _ => ?_, fun _ => trivial⟩
    · rw [step, rklcStartGet_eq sound.accounts.listed]
      rfl
    refine ⟨⟨?_, ?_, unfinished_cons_nodup sound.distinct event, fun span beyond => ?_, ?_⟩, ?_⟩
    · rw [ledger_cons sound.distinct event]
      refine sound.accounts.start unseen.absent fun key pending => ?_
      exact unseen.absent (mem_overlapping.mp pending).1
    · simp [Container.withGet, sound.counted]
    · refine (sound.unseen span (Nat.le_of_succ_le beyond)).cons fun same => ?_
      have later : world.container.nextAddress + 1 ≤ span := beyond
      rw [Event.started.injEq] at same
      omega
    · refine sound.held.same (fun {other entry} there => ?_) fun {other entry} there _ => ?_
      · obtain ⟨before, found, rfl⟩ := map_eq_some_iff.mp there
        exact ⟨before, found, by simp⟩
      · exact ⟨entry.bumped, by simp [Container.withGet, there]⟩
    · intro other entry there
      obtain ⟨before, found, rfl⟩ := map_eq_some_iff.mp there
      have needed := sound.needed found
      simp only [KeyLock.Needed, bumped_rest, bumped_reserveCount]
      exact ⟨needed.1.imp_right fun reserved => by omega, needed.2⟩

section

variable {container : Container κ} {gets : List RklcGet} {book : Ledger κ ℕ} {get : RklcGet}

theorem map_erase_of_nodup {α β : Type*} [DecidableEq α] [DecidableEq β] {f : α → β} {a : α}
    {l : List α} (nodup : (l.map f).Nodup) (among : a ∈ l) :
    (l.erase a).map f = (l.map f).erase (f a) := by
  induction l with
  | nil => rfl
  | cons first rest ih =>
    obtain ⟨fresh, nodup⟩ := nodup_cons.mp nodup
    by_cases same : first = a
    · simp [same]
    · have within : a ∈ rest := (mem_cons.mp among).resolve_left (Ne.symm same)
      have ne : f first ≠ f a := fun sameImage =>
        fresh (sameImage ▸ mem_map_of_mem within)
      rw [erase_cons_tail (by simpa using same), map_cons, map_cons,
        erase_cons_tail (by simpa using ne), ih nodup within]

section

variable (accounts : Accounts container gets book)

include accounts

omit [DecidableEq κ] in
/-- A completing get no longer counts among the open ones. -/
theorem Accounts.close (nodup : book.spans.Nodup) (among : get ∈ gets) :
    Accounts { container with currentLtime := container.currentLtime + 1 } (gets.erase get)
      { book with spans := book.spans.erase get.address } where
  indexed := { accounts.indexed with }
  listed := { accounts.listed with }
  locks found := (accounts.locks found).carry (Int.le_add_one (Int.le_refl _)) rfl rfl
    fun other left => ⟨other, mem_of_mem_erase left, rfl, rfl⟩
  spans := by
    have distinct : (gets.map (·.address)).Nodup := accounts.spans ▸ nodup
    rw [map_erase_of_nodup distinct among, accounts.spans]
  clock := Int.le_trans accounts.clock (Int.le_add_one (Int.le_refl _))
  started other left := by
    have times := accounts.started other (mem_of_mem_erase left)
    exact ⟨times.1, Int.lt_trans times.2 (Int.lt_succ _)⟩
  alone other left := accounts.alone other (mem_of_mem_erase left)
  oldest other left := accounts.oldest other (mem_of_mem_erase left)
  absent := accounts.absent

omit [DecidableEq κ] in
/-- A lock that a get has to let go of is one that was held while it ran. -/
theorem Accounts.pending_iff (regular : Regular book)
    (among : get ∈ gets) (found : container.heap address = some lock) :
    get.address ∈ book.pending lock.key ↔
      lock.lockMode.modifying ∨ get.startLtime < lock.lastModifyingReleaseLtime := by
  have sound := accounts.locks found
  cases held : book.held lock.key with
  | true =>
    refine iff_of_true ?_ (.inl (sound.held.symm.trans held))
    rw [regular.full lock.key held, ← accounts.spans]
    exact mem_map_of_mem among
  | false =>
    rw [sound.since held get among, ← sound.held, held]
    simp

omit [DecidableEq κ] in
/-- The locks that a completing get decrements are among those that it has to let go of. -/
theorem Accounts.pending_of_overlaps
    (regular : Regular book) (among : get ∈ gets) (found : container.heap address = some lock)
    (reserved : 0 < lock.reserveCount) {endLtime : ℤ} (overlaps : get.overlaps endLtime lock) :
    get.address ∈ book.pending lock.key ∧
      (book.held lock.key = false → lock.lastModifyingReleaseLtime ≠ LTIME_INVALID) := by
  have sound := accounts.locks found
  have valid : book.held lock.key = false → lock.lastModifyingReleaseLtime ≠ LTIME_INVALID := by
    intro unheld invalid
    have count := sound.reserved
    rw [unheld, Bool.toNat_false, Nat.zero_add] at count
    -- some open get is counted, and it began before the last release
    obtain ⟨span, pending⟩ := length_pos_iff_exists_mem.mp (count ▸ reserved)
    have isOpen := regular.isOpen lock.key span pending
    rw [← accounts.spans] at isOpen
    obtain ⟨other, isOpened, rfl⟩ := mem_map.mp isOpen
    have began := (sound.since unheld other isOpened).mp pending
    have started := accounts.started other isOpened
    rw [invalid, LTIME_INVALID] at began
    omega
  refine ⟨(accounts.pending_iff regular among found).mpr ?_, valid⟩
  rw [RklcGet.overlaps, decide_eq_true_iff] at overlaps
  cases modifying : lock.lockMode.modifying with
  | true => exact .inl rfl
  | false => exact .inr (overlaps.1.resolve_left (valid (sound.held.trans modifying)))

omit [DecidableEq κ] in
theorem Accounts.modifyListFrom_eq (among : get ∈ gets) :
    ∃ passed, modifyListFrom container.modifyList get.oldestOverlappingModify = some passed ∧
      passed.Sublist container.modifyList := by
  cases first : get.oldestOverlappingModify with
  | none => exact ⟨[], rfl, nil_sublist _⟩
  | some oldest =>
    obtain ⟨lock, found, pending⟩ := accounts.oldest get among oldest first
    have counted := (accounts.locks found).reserved
    have positive := length_pos_of_mem pending
    have on : oldest ∈ container.modifyList :=
      (accounts.listed.modifyMem oldest).mpr ⟨lock, found, by omega⟩
    exact ⟨_, if_pos on, dropWhile_sublist _⟩

end

omit [DecidableEq κ] in
theorem mem_chosenKeys {endLtime : ℤ} {passed : List ℕ} {key : κ} :
    key ∈ chosenKeys get endLtime container passed ↔ ∃ address ∈ passed, ∃ lock,
      container.heap address = some lock ∧ get.overlaps endLtime lock ∧ lock.key = key := by
  simp [chosenKeys, bind_eq_some_iff]

theorem Sound.complete (sound : Sound world) (among : get ∈ world.container.getList) :
    ∃ passed after, modifyListFrom world.container.modifyList get.oldestOverlappingModify =
        some passed ∧ rklcGetComplete world.container get.address = some after ∧ AllNeeded after ∧
      Held after world.handles ∧ after.nextAddress = world.container.nextAddress ∧
      after.getCount = after.getList.length ∧
      Accounts after after.getList ⟨held world.history, (unfinished world.history).erase get.address,
        fun key => if key ∈ chosenKeys get world.container.currentLtime world.container passed then
          (overlapping world.history key).erase get.address else overlapping world.history key⟩ := by
  have accounts := sound.accounts
  have regular := regular_ledger sound.distinct
  have counted := sound.counted
  have distinct : (world.container.getList.map (·.address)).Nodup := by
    rw [accounts.spans]
    exact sound.distinct
  obtain ⟨passed, walk, sublist⟩ := accounts.modifyListFrom_eq among
  have reserved : ∀ {other}, other ∈ passed → ∃ lock,
      world.container.heap other = some lock ∧ 0 < lock.reserveCount :=
    fun on => (accounts.listed.modifyMem _).mp (sublist.subset on)
  obtain ⟨walked, taken, settled, needed, same⟩ := completeWalk_spec get
    world.container.currentLtime (accounts.close sound.distinct among) sound.needed
    (accounts.listed.modifyNodup.sublist sublist)
    (fun other on => (reserved on).imp fun _ => And.left)
    (fun other on lock found overlaps => by
      obtain ⟨entry, there, positive⟩ := reserved on
      cases found.symm.trans there
      exact accounts.pending_of_overlaps regular among found positive overlaps)
    (fun other left sameAddress => by
      have gone : get.address ∉ (world.container.getList.map (·.address)).erase get.address :=
        distinct.not_mem_erase
      rw [← map_erase_of_nodup distinct among] at gone
      exact gone (mem_map.mpr ⟨other, left, sameAddress⟩))
  have first : world.container.getList.find? (·.address = get.address) = some get := by
    cases found : world.container.getList.find? (·.address = get.address) with
    | none => exact absurd (by simp) (find?_eq_none.mp found get among)
    | some other =>
      have sameAddress : other.address = get.address := by simpa using find?_some found
      rw [inj_on_of_nodup_map distinct (mem_of_find?_eq_some found) among sameAddress]
  have getList : walked.getList = world.container.getList := same.getList
  have getCount : walked.getCount = world.container.getCount := same.getCount
  have positive := length_pos_of_mem among
  refine ⟨passed, { walked with
    getList := walked.getList.erase get, getCount := walked.getCount - 1 }, walk, ?_, needed,
    ?_, same.nextAddress, ?_, ?_⟩
  · rw [rklcGetComplete, first, bind_some, if_neg (by omega), walk, bind_some, taken]
    rfl
  · exact sound.held.same same.back same.forth
  · rw [getList, getCount, length_erase_of_mem among, counted]
  · rw [Ledger.foldl_settle] at settled
    · rw [getList]
      exact { settled with indexed := { settled.indexed with }, listed := { settled.listed with } }
    · exact regular.nodup

/-- A get is completed. -/
theorem getComplete_settles (sound : Sound world)
    (running : address ∈ unfinished world.history) : Settles world (.getComplete address) := by
  have accounts := sound.accounts
  have regular := regular_ledger sound.distinct
  have event : Fresh world.history (.completed address) := trivial
  have distinct : (world.container.getList.map (·.address)).Nodup := by
    rw [accounts.spans]
    exact sound.distinct
  have listed : address ∈ world.container.getList.map (·.address) := by
    rw [accounts.spans]
    exact running
  obtain ⟨get, among, rfl⟩ := mem_map.mp listed
  obtain ⟨passed, after, walk, taken, needed, held', next, counted, settled⟩ := sound.complete among
  refine ⟨⟨after, world.handles, .completed get.address :: world.history⟩, ?_, fun clean => ?_,
    fun counts => ?_⟩
  · rw [step, taken]
    rfl
  · have chosen : ∀ key, get.address ∈ overlapping world.history key →
        key ∈ chosenKeys get world.container.currentLtime world.container passed := by
      intro key pending
      cases hashed : world.container.hash key with
      | none =>
        have nothing : overlapping world.history key = [] := (accounts.absent key hashed).2
        rw [nothing] at pending
        cases pending
      | some other =>
        obtain ⟨lock, found, rfl⟩ := (accounts.indexed.hashed key other).mp hashed
        obtain ⟨⟨passed', from', on⟩, visible⟩ := clean get among rfl other lock found
          ((accounts.pending_iff regular among found).mp pending)
        rw [walk, some.injEq] at from'
        refine mem_chosenKeys.mpr ⟨other, from' ▸ on, lock, found, ?_, rfl⟩
        exact decide_eq_true ⟨visible, (accounts.locks found).firstPast⟩
    have book : ledger (.completed get.address :: world.history) = ⟨held world.history,
        (unfinished world.history).erase get.address, fun key =>
          if key ∈ chosenKeys get world.container.currentLtime world.container passed then
            (overlapping world.history key).erase get.address
          else overlapping world.history key⟩ := by
      rw [ledger_cons sound.distinct event]
      refine Ledger.ext rfl rfl (funext fun key => ?_)
      simp only [Ledger.apply, Ledger.complete, ledger]
      split
      · rfl
      · next unchosen => exact erase_of_not_mem fun pending => unchosen (chosen key pending)
    refine ⟨⟨book ▸ settled, counted, unfinished_cons_nodup sound.distinct event, fun span beyond => ?_,
      held'⟩, needed⟩
    have later : world.container.nextAddress ≤ span := next ▸ beyond
    exact (sound.unseen span later).cons (by simp)
  · intro get' among' sameAddress other lock found overlapped
    have same : get' = get := inj_on_of_nodup_map distinct among' among sameAddress
    subst same
    have pending : get'.address ∈ overlapping world.history lock.key :=
      (accounts.pending_iff regular among found).mpr overlapped
    by_cases chosen : lock.key ∈ chosenKeys get' world.container.currentLtime world.container passed
    · obtain ⟨other', on, lock', found', overlaps, sameKey⟩ := mem_chosenKeys.mp chosen
      have sameEntry := accounts.indexed.keyInjective found' found sameKey
      subst sameEntry
      cases found.symm.trans found'
      rw [RklcGet.overlaps, decide_eq_true_iff] at overlaps
      exact ⟨⟨passed, walk, on⟩, overlaps.1⟩
    · -- the walk has missed the lock, whose count is now one too high
      have wrong := (settled.reservations_eq held' lock.key).symm.trans (counts lock.key)
      have settledFor : overlapping (.completed get'.address :: world.history) lock.key =
          (overlapping world.history lock.key).erase get'.address :=
        overlapping_completed sound.distinct
      simp only [chosen, if_false, owed] at wrong
      rw [Nat.add_left_cancel_iff, settledFor, length_erase_of_mem pending] at wrong
      have positive := length_pos_of_mem pending
      omega

end

/-- Every call within its contract settles. -/
theorem call_settles (sound : Sound world) {call : Call κ} (contract : Contract world call) :
    Settles world call := by
  cases call with
  | lock key lockMode cb waiterAllocated => exact lock_settles sound contract
  | unlock address =>
    cases first : world.handles.find? (·.address = address) with
    | none =>
      obtain ⟨handle, among, same⟩ := contract
      exact absurd (by simp [same]) (find?_eq_none.mp first handle among)
    | some handle =>
      have same : handle.address = address := by simpa using find?_some first
      subst same
      exact unlock_settles sound (mem_of_find?_eq_some first) first
  | startGet allocated => exact startGet_settles sound allocated
  | getComplete address => exact getComplete_settles sound contract

/-- In a run that keeps to the contract, the reservations are exact in every state just in case every
call is clean. -/
theorem reservations_exact_iff (replicationType : SdfReplication) (calls : List (Call κ))
    (legal : Machine.Admitted step Contract (initial replicationType) calls) :
    (∀ before, before <+: calls → ∃ world,
        run step (initial replicationType) before = some world ∧ Exact world) ↔
      Machine.Admitted step Clean (initial replicationType) calls :=
  admitted_iff_good Sound.exact
    (fun sound contract =>
      let ⟨next, taken, keeps, clean⟩ := call_settles sound contract
      ⟨next, taken, keeps, fun exactly => clean exactly.counts⟩)
    (initial_sound replicationType) legal

/-- A lock on key 7 that is released while a get runs. -/
def releasedDuringGet : List (Call ℕ) :=
  [.lock 7 .exclusive 0 true, .startGet true, .unlock 0, .lock 7 .recovery 1 true, .getComplete 1]

theorem reservations_exact_during_get :
    Machine.Admitted step Contract (initial .v12Way) releasedDuringGet ∧
      ((∀ before, before <+: releasedDuringGet → ∃ world,
          run step (initial .v12Way) before = some world ∧ Exact world) ↔
        Machine.Admitted step Clean (initial .v12Way) releasedDuringGet) :=
  ⟨by decide, reservations_exact_iff .v12Way releasedDuringGet (by decide)⟩

/-- A key that a first get still reserves is locked again after a second get has started. -/
def relockedDuringGets : List (Call ℕ) :=
  [.lock 7 .exclusive 0 true, .startGet true, .unlock 0, .startGet true, .lock 7 .exclusive 0 true]

/-- The second get overlaps the second hold and is not counted. -/
theorem relocked_key_misses_get :
    Machine.Admitted step Contract (initial .v12Way) relockedDuringGets ∧
      ∃ world, run step (initial .v12Way) relockedDuringGets = some world ∧
        reservations world.container 7 = 2 ∧ owed world 7 = 3 ∧ ¬ Exact world :=
  ⟨by decide, _, rfl, rfl, rfl, fun exactly => absurd (exactly.counts 7) (by decide)⟩

/-- After clean calls, a modifying holder of a key is its only holder. -/
theorem key_locks_exclusive {type : SdfReplication} {calls : List (Call κ)}
    (legal : Machine.Admitted step (fun world call => Contract world call ∧ Clean world call)
      (initial type) calls) :
    ∃ world, run step (initial type) calls = some world ∧ ∀ handle ∈ world.handles,
      handle.lockMode.modifying → world.handles.countP (·.key = handle.key) = 1 := by
  obtain ⟨world, reached, sound⟩ := @run_total _ _ _ _ Sound _ _ (fun sound met =>
    (call_settles sound met.1).imp fun _ next => ⟨next.1, next.2.1 met.2⟩) (initial_sound _) legal
  refine ⟨world, reached, fun handle among modifying => ?_⟩
  obtain ⟨lock, found, key, mode⟩ := sound.held.live handle among
  rw [← (sound.accounts.locks found).single (mode ▸ modifying), ← sound.held.count found]
  -- a holder has the key just in case it has the entry
  refine countP_congr fun other among' => ?_
  obtain ⟨lock', found', key', _⟩ := sound.held.live other among'
  simp only [decide_eq_true_eq, ← key, ← key']
  refine ⟨sound.accounts.indexed.keyInjective found' found, fun same => ?_⟩
  rw [same, found] at found'
  exact congrArg _ (some.inj found').symm

/-- A modifier and a reader wait for a key and are granted it one after the other. -/
def contended : List (Call ℕ) :=
  [.lock 7 .exclusive 0 true, .lock 7 .exclusive 1 true, .lock 7 .shared 2 true, .unlock 0]

theorem key_locks_exclusive_contended : ∃ world, run step (initial .v12Way) contended = some world ∧
    world.handles.countP (·.key = 7) = 1 := by
  have legal : Machine.Admitted step (fun world call => Contract world call ∧ Clean world call)
      (initial .v12Way) contended := by
    refine .cons ⟨by decide, nofun⟩ rfl (.cons ⟨by decide, ?_⟩ rfl (.cons ⟨by decide, nofun⟩ rfl
      (.cons ⟨by decide, ?_⟩ rfl trivial)))
    · rintro _ _ ⟨⟩ ⟨⟩ ⟨⟩
    · rintro _ _ ⟨⟩ ⟨⟩
  obtain ⟨_, ⟨⟩, single⟩ := key_locks_exclusive legal
  exact ⟨_, rfl, single _ mem_cons_self rfl⟩

-- Without clean calls not every call returns: here the last completion fails an assertion.
example :
    let calls : List (Call ℕ) := [.lock 7 .exclusive 0 true, .lock 7 .recovery 1 true,
      .startGet true, .unlock 0, .startGet true, .lock 7 .exclusive 2 true, .unlock 0,
      .getComplete 1, .getComplete 2]
    Machine.Admitted step Contract (initial .v12Way) calls ∧
      run step (initial .v12Way) calls = none :=
  ⟨by decide, rfl⟩

end Zetascale.Replication
