import Zetascale.Seqno.Alloc

/-!
# When sequence numbers are not repeated

Two lines of `seqnoalloc` break the promise. After a restart the first call
takes the saved limit as its number and leaves the counter there, so if that
call returns, the next draw of the incarnation gets the same number again. And
after a failed write has zeroed the limit, a call that drew its number long ago
may write a limit below the saved one. `State.Sound` excludes exactly these two,
and the promise holds along every history that meets it.

An incarnation is in one of three phases. Before the first body it has
returned nothing. As long as it has returned only numbers below its counter,
draws give new ones. Once it has handed out the limit that it read back, the
call that did so was alone, and no other follows.
-/

namespace Zetascale.Seqno

open Machine List Option Function Call

/-- The condition under which the allocator keeps its promise. -/
def State.Sound (s : State) : Action → Prop
  -- no draw of a number that the call that read the limit back has handed out
  | .fetchAndAdd _ => s.recovered = true → ∀ r ∈ s.returned, r.value < s.seqno
  | .locked t _ =>
    -- the limit is read back only while no other call holds a number
    (s.initialized = false → s.saved ≠ none → ∀ other, other ≠ t → s.calls other = .idle) ∧
    -- a written limit is not below the saved one
    (∀ z limit, s.initialized = true → s.calls t = .locking z → s.seqnolimit ≤ z →
      s.saved = some limit → limit ≤ z + SEQNO_SYNC_INTERVAL)
  | _ => True

open State

/-- Calls in progress hold distinct numbers, all of them below the counter. -/
structure Draws (calls : ℕ → Call) (seqno : ℕ) : Prop where
  below : ∀ {t z}, (calls t).number = some z → z < seqno
  distinct : ∀ {t t' z}, (calls t).number = some z → (calls t').number = some z → t = t'

namespace Draws

variable {calls : ℕ → Call} {seqno t z : ℕ}

/-- The number a thread holds after a single-thread update of the calls. -/
theorem number_update (calls : ℕ → Call) (t other : ℕ) (call : Call) :
    (update calls t call other).number =
      if other = t then call.number else (calls other).number := by
  rw [update_apply]
  split <;> rfl

theorem fetchAndAdd (draws : Draws calls seqno) :
    Draws (update calls t (.drawn seqno)) (seqno + 1) where
  below := by
    intro other z held
    rw [number_update] at held
    split at held
    · simp only [number, some.injEq] at held
      omega
    · exact Nat.lt_succ_of_lt (draws.below held)
  distinct := by
    intro first second z heldFirst heldSecond
    rw [number_update] at heldFirst heldSecond
    split at heldFirst <;> split at heldSecond
    · simp_all
    · have := draws.below heldSecond
      simp_all [number]
    · have := draws.below heldFirst
      simp_all [number]
    · exact draws.distinct heldFirst heldSecond

/-- A thread that moves on, or returns, holds no other number than before. -/
theorem number_of_update {call : Call} (held : ∀ z, call.number = some z → (calls t).number = some z)
    {other : ℕ} (now : (Function.update calls t call other).number = some z) :
    (calls other).number = some z := by
  rw [number_update] at now
  split at now
  · next same => exact same ▸ held z now
  · exact now

theorem update (draws : Draws calls seqno) {call : Call}
    (held : ∀ z, call.number = some z → (calls t).number = some z) :
    Draws (update calls t call) seqno where
  below := fun now => draws.below (number_of_update held now)
  distinct := fun nowFirst nowSecond =>
    draws.distinct (number_of_update held nowFirst) (number_of_update held nowSecond)

theorem finish (draws : Draws calls seqno) : Draws (Function.update calls t .idle) seqno :=
  draws.update (by simp [number])

end Draws

/-- The counter is above all that was returned, and the numbers in progress are new, above those of
earlier incarnations. -/
structure Counting (s : State) (calls : ℕ → Call) : Prop where
  draws : Draws calls s.seqno
  below : ∀ r ∈ s.returned, r.value < s.seqno
  spent : ∀ r ∈ s.returned, ∀ t, (calls t).number ≠ some r.value
  above : ∀ r ∈ s.returned, r.incarnation < s.incarnation →
    ∀ {t z}, (calls t).number = some z → r.value < z

/-- What an incarnation has done so far. -/
inductive Phase (s : State) : Prop where
  | unopened (closed : s.initialized = false) (draws : Draws s.calls s.seqno)
      (before : ∀ r ∈ s.returned, r.incarnation < s.incarnation)
  | counting (opened : s.initialized = true) (counting : Counting s s.calls)
  | handed (opened : s.initialized = true) (readBack : s.recovered = true)
      (alone : ∀ t, s.calls t = .idle) (given : ∃ r ∈ s.returned, s.seqno ≤ r.value)

/-- The invariant of sound histories. -/
structure Inv (s : State) : Prop where
  unrepeated : s.Unrepeated
  incarnations : ∀ r ∈ s.returned, r.incarnation ≤ s.incarnation
  covered : ∀ r ∈ s.returned, ∃ limit, s.saved = some limit ∧ r.value < limit
  limitSaved : s.seqnolimit = 0 ∨ s.saved = some s.seqnolimit
  limitClosed : s.initialized = false → s.seqnolimit = 0
  savedIn : s.saved ≠ none → s.container = true
  openedIn : s.initialized = true → s.container = true
  phase : Phase s

/-- No call is in progress right after a start. -/
theorem draws_initial : Draws State.initial.calls State.initial.seqno :=
  ⟨by simp [initial, number], by simp [initial, number]⟩

theorem inv_initial : Inv State.initial where
  unrepeated := List.Pairwise.nil
  incarnations := nofun
  covered := nofun
  limitSaved := .inl rfl
  limitClosed := fun _ => rfl
  savedIn := fun saved => absurd rfl saved
  openedIn := nofun
  phase := .unopened rfl draws_initial nofun

variable {s : State} {t z : ℕ}

/-- A thread that moves on, or returns an error, leaves the count as it is. -/
theorem Counting.update (counting : Counting s s.calls) {call : Call}
    (held : ∀ z, call.number = some z → (s.calls t).number = some z) :
    Counting s (update s.calls t call) where
  draws := counting.draws.update held
  below := counting.below
  spent := fun r mem other now => counting.spent r mem other (Draws.number_of_update held now)
  above := fun r mem earlier _ _ now => counting.above r mem earlier (Draws.number_of_update held now)

namespace Inv

/-- A call that returns -1 only gives up its number. -/
theorem returnError (inv : Inv s) : Inv (s.finish t none) where
  __ := inv
  phase := by
    cases inv.phase with
    | unopened closed draws before => exact .unopened closed draws.finish before
    | counting opened counting =>
      have closing : Counting s (update s.calls t .idle) := counting.update nofun
      exact .counting opened { closing with }
    | handed opened readBack alone given =>
      refine .handed opened readBack (fun other => ?_) given
      change Function.update s.calls t .idle other = .idle
      rw [Function.update_apply]
      split
      · rfl
      · exact alone other

/-- A returned number that is new, above every earlier incarnation's, and below
the saved limit can be added to the history. -/
theorem unrepeated_cons (unrepeated : s.Unrepeated)
    (fresh : ∀ r ∈ s.returned, z ≠ r.value ∧ (r.incarnation < s.incarnation → r.value < z)) :
    (s.finish t (some z)).Unrepeated :=
  List.Pairwise.cons fresh unrepeated

section

variable (inv : Inv s)

include inv

/-- A call in progress, once the limit is known, has drawn from the counter. -/
theorem counting_of_held (opened : s.initialized = true) (held : (s.calls t).number = some z) :
    Counting s s.calls := by
  cases inv.phase with
  | unopened closed => simp [closed] at opened
  | counting _ counting => exact counting
  | handed _ _ alone => simp [alone, number] at held

/-- An incarnation returns a number it drew. -/
theorem returnOwn (opened : s.initialized = true) (held : (s.calls t).number = some z)
    (below : ∃ limit, s.saved = some limit ∧ z < limit) : Inv (s.finish t (some z)) := by
  have counting := inv.counting_of_held opened held
  have closing : Counting s (update s.calls t .idle) := counting.update nofun
  refine ⟨unrepeated_cons inv.unrepeated ?_, ?_, ?_, inv.limitSaved, inv.limitClosed,
    inv.savedIn, inv.openedIn, .counting opened ⟨closing.draws, ?_, ?_, ?_⟩⟩
  · exact fun r mem => ⟨fun same => counting.spent r mem t (same ▸ held),
      fun earlier => counting.above r mem earlier held⟩
  · exact forall_mem_cons.mpr ⟨Nat.le_refl _, inv.incarnations⟩
  · exact forall_mem_cons.mpr ⟨below, inv.covered⟩
  · exact forall_mem_cons.mpr ⟨counting.draws.below held, counting.below⟩
  · refine forall_mem_cons.mpr ⟨fun other => ?_, closing.spent⟩
    change (Function.update s.calls t .idle other).number ≠ some z
    rw [Draws.number_update]
    split
    · simp [number]
    · rename_i otherThread
      exact fun same => otherThread (counting.draws.distinct same held)
  · exact forall_mem_cons.mpr ⟨fun earlier => absurd earlier (lt_irrefl _), closing.above⟩

theorem extend (opened : s.initialized = true) (limit : ℕ)
    (raised : ∀ old, s.saved = some old → old ≤ limit) :
    Inv { s with seqnolimit := limit, saved := some limit } where
  __ := inv
  covered := by
    intro r mem
    obtain ⟨old, saved, below⟩ := inv.covered r mem
    exact ⟨limit, rfl, Nat.lt_of_lt_of_le below (raised old saved)⟩
  limitSaved := .inr rfl
  limitClosed := by simp [opened]
  savedIn := fun _ => inv.openedIn opened
  phase := by
    cases inv.phase with
    | unopened closed => simp [opened] at closed
    | counting _ counting => exact .counting opened { counting with }
    | handed _ readBack alone given => exact .handed opened readBack alone given

theorem zeroLimit : Inv { s with seqnolimit := 0 } where
  __ := inv
  limitSaved := .inl rfl
  limitClosed := fun _ => rfl
  phase := by
    cases inv.phase with
    | unopened closed draws before => exact .unopened closed draws before
    | counting opened counting => exact .counting opened { counting with }
    | handed opened readBack alone given => exact .handed opened readBack alone given

/-- Creating the container: nothing can have been returned before. -/
theorem create (missing : s.container = false) :
    Inv { s with container := true, initialized := true } := by
  have unsaved : s.saved = none := by
    by_contra saved
    simp [inv.savedIn saved] at missing
  have nothing : s.returned = [] := by
    refine eq_nil_iff_forall_not_mem.mpr fun r mem => ?_
    obtain ⟨limit, saved, -⟩ := inv.covered r mem
    simp [unsaved] at saved
  obtain ⟨closed, draws, -⟩ | ⟨opened, -⟩ | ⟨opened, -, -, -⟩ := inv.phase
  · refine ⟨inv.unrepeated, inv.incarnations, inv.covered, inv.limitSaved, ?_, fun _ => rfl,
      fun _ => rfl, .counting rfl ⟨draws, ?_, ?_, ?_⟩⟩ <;> simp [nothing]
  · simp [inv.openedIn opened] at missing
  · simp [inv.openedIn opened] at missing

/-- The limit read back is above all that was returned, and the counter is set to it. -/
theorem readBack {limit : ℕ} (saved : s.saved = some limit) (alone : ∀ t, s.calls t = .idle) :
    Inv { s with seqnolimit := limit, seqno := limit, initialized := true, recovered := true } where
  __ := inv
  limitSaved := .inr saved
  limitClosed := nofun
  openedIn := fun _ => inv.savedIn (by simp [saved])
  phase := by
    refine .counting rfl ⟨⟨?_, ?_⟩, fun r mem => ?_, ?_, ?_⟩
    · simp [alone, number]
    · simp [alone, number]
    · obtain ⟨_, same, below⟩ := inv.covered r mem
      rw [saved, some.injEq] at same
      exact same ▸ below
    · simp [alone, number]
    · simp [alone, number]

/-- The fetch-and-add of a number that was not handed out. -/
theorem fetchAndAdd (sound : s.Sound (.fetchAndAdd t)) :
    Inv { s with calls := update s.calls t (.drawn s.seqno), seqno := s.seqno + 1 } where
  __ := inv
  phase := by
    cases inv.phase with
    | unopened closed draws before => exact .unopened closed draws.fetchAndAdd before
    | counting opened counting =>
      refine .counting opened ⟨counting.draws.fetchAndAdd,
        fun r mem => Nat.lt_succ_of_lt (counting.below r mem), fun r mem other => ?_,
        fun r mem earlier other n held => ?_⟩
      · rw [Draws.number_update]
        split
        · simpa [number] using (counting.below r mem).ne'
        · exact counting.spent r mem other
      · rw [Draws.number_update] at held
        split at held
        · cases held
          exact counting.below r mem
        · exact counting.above r mem earlier held
    | handed _ readBack _ given =>
      obtain ⟨r, mem, reached⟩ := given
      exact absurd (sound readBack r mem) (not_lt.mpr reached)

/-- A call that fails the unlocked test keeps its number. -/
theorem moveOn (held : s.calls t = .drawn z) :
    Inv { s with calls := update s.calls t (.locking z) } where
  __ := inv
  phase := by
    have same : ∀ n, (Call.locking z).number = some n → (s.calls t).number = some n := by
      simp [held, number]
    cases inv.phase with
    | unopened closed draws before => exact .unopened closed (draws.update same) before
    | counting opened counting => exact .counting opened { counting.update same with }
    | handed _ _ alone => simp [alone] at held

theorem restart : Inv s.restart where
  __ := inv
  incarnations := fun r mem => Nat.le_succ_of_le (inv.incarnations r mem)
  limitSaved := .inl rfl
  limitClosed := fun _ => rfl
  openedIn := nofun
  phase := .unopened rfl draws_initial fun r mem => Nat.lt_succ_of_le (inv.incarnations r mem)

/-- The `unless (z < seqnolimit)` block and the return, for a number that was drawn. -/
theorem extendOwn (opened : s.initialized = true) (held : s.calls t = .locking z)
    (raised : ∀ limit, s.seqnolimit ≤ z → s.saved = some limit → limit ≤ z + SEQNO_SYNC_INTERVAL)
    (io : Io) : Inv ((extendLimit s z io).1.finish t (extendLimit s z io).2) := by
  have number : (s.calls t).number = some z := by simp [held, number]
  unfold extendLimit
  split
  · rename_i below
    refine inv.returnOwn opened number ⟨s.seqnolimit, ?_, below⟩
    exact inv.limitSaved.resolve_left (by omega)
  · rename_i reached
    split
    · have extended := inv.extend opened (z + SEQNO_SYNC_INTERVAL) fun old => raised old (by omega)
      refine extended.returnOwn opened number ⟨_, rfl, ?_⟩
      exact Nat.lt_add_of_pos_right (by decide)
    · exact inv.zeroLimit.returnError

/-- The body of the call that reads the limit back, with every other thread idle. -/
theorem recoverOwn {limit : ℕ} (saved : s.saved = some limit)
    (alone : ∀ other, other ≠ t → s.calls other = .idle) (io : Io) :
    let opened : State :=
      { s with seqnolimit := limit, seqno := limit, initialized := true, recovered := true }
    Inv ((extendLimit opened limit io).1.finish t (extendLimit opened limit io).2) := by
  have allIdle : ∀ other, (s.finish t none).calls other = .idle := by
    intro other
    change update s.calls t .idle other = .idle
    rw [update_apply]
    split
    · rfl
    · rename_i differs
      exact alone other differs
  have opened := (inv.returnError (t := t)).readBack saved allIdle
  simp only [extendLimit, Nat.lt_irrefl, if_false]
  split
  · have extended := opened.extend rfl (limit + SEQNO_SYNC_INTERVAL) (by
      intro old same
      change s.saved = some old at same
      simp only [saved, some.injEq] at same
      omega)
    refine ⟨unrepeated_cons inv.unrepeated ?_, ?_, ?_, extended.limitSaved, extended.limitClosed,
      extended.savedIn, extended.openedIn, .handed rfl rfl allIdle ⟨_, mem_cons_self, le_rfl⟩⟩
    · intro r mem
      obtain ⟨_, same, below⟩ := inv.covered r mem
      rw [saved, some.injEq] at same
      omega
    · exact forall_mem_cons.mpr ⟨Nat.le_refl _, inv.incarnations⟩
    · refine forall_mem_cons.mpr ⟨⟨_, rfl, ?_⟩, extended.covered⟩
      exact Nat.lt_add_of_pos_right (by decide)
  · exact opened.zeroLimit

/-- The body under `seqnolock` and the return. -/
theorem locked {io : Io} (sound : s.Sound (.locked t io)) (held : s.calls t = .locking z) :
    Inv ((lockedBody s z io).1.finish t (lockedBody s z io).2) := by
  unfold lockedBody initSeqno
  by_cases opened : s.initialized = true
  · simp only [opened, if_true]
    exact inv.extendOwn opened held (fun limit reached => sound.2 z limit opened held reached) io
  · rw [Bool.not_eq_true] at opened
    simp only [opened, Bool.false_eq_true, if_false]
    cases io.opened with
    | false => exact inv.returnError
    | true =>
      by_cases known : s.container = true
      · simp only [known, if_true, Bool.not_true, Bool.false_eq_true, if_false]
        cases saved : s.saved with
        | none => exact inv.returnError
        | some limit =>
          cases io.read with
          | false => exact inv.returnError
          | true =>
            have alone := sound.1 opened (by simp [saved])
            simpa only [known, saved] using inv.recoverOwn saved alone io
      · rw [Bool.not_eq_true] at known
        simp only [known, Bool.not_true, Bool.false_eq_true, if_false]
        cases io.created with
        | false => exact inv.returnError
        | true =>
          refine (inv.create known).extendOwn rfl held (fun limit _ saved => ?_) io
          exact absurd (inv.savedIn (by simp [show s.saved = some limit from saved]))
            (by simp [known])

end

end Inv

theorem inv_step {s next : State} {action : Action} (inv : Inv s) (sound : s.Sound action)
    (taken : step s action = some next) : Inv next := by
  cases action with
  | fetchAndAdd t =>
    cases held : s.calls t with
    | idle =>
      simp only [step, held, some.injEq] at taken
      exact taken ▸ inv.fetchAndAdd sound
    | drawn | locking => simp [step, held] at taken
  | test t =>
    cases held : s.calls t with
    | idle | locking => simp [step, held] at taken
    | drawn z =>
      simp only [step, held] at taken
      split at taken
      · rename_i passed
        simp only [Bool.and_eq_true, decide_eq_true_eq] at passed
        cases taken
        refine inv.returnOwn passed.1 (by simp [held, number]) ⟨s.seqnolimit, ?_, passed.2⟩
        exact inv.limitSaved.resolve_left (by omega)
      · cases taken
        exact inv.moveOn held
  | locked t io =>
    cases held : s.calls t with
    | idle | drawn => simp [step, held] at taken
    | locking z =>
      simp only [step, held, some.injEq] at taken
      exact taken ▸ inv.locked sound held
  | restart =>
    cases taken
    exact inv.restart

/-- Along every sound history of any number of threads and restarts, returned
numbers are distinct and grow across restarts. -/
theorem seqnoalloc_unrepeated {actions : List Action} {s : State}
    (sound : Admitted step State.Sound State.initial actions)
    (reached : run step State.initial actions = some s) : s.Unrepeated :=
  (run_induction inv_step inv_initial sound reached).unrepeated

/-- All operations on the container and the object succeed. -/
def Io.ok : Io := ⟨true, true, true, true⟩

/-- The actions of one undisturbed call of thread `t` that needs the lock. -/
def firstCall (t : ℕ) : List Action := [.fetchAndAdd t, .test t, .locked t .ok]

/-- Two threads draw before the container exists. After a restart the call that reads the limit back
fails to write a new one, and the two calls that follow draw from it on. -/
def twoThreads : List Action :=
  [.fetchAndAdd 0, .fetchAndAdd 1, .test 1, .locked 1 .ok, .test 0, .restart,
    .fetchAndAdd 0, .test 0, .locked 0 ⟨true, true, true, false⟩] ++ firstCall 0 ++
  [.fetchAndAdd 1, .test 1]

theorem twoThreads_unrepeated :
    ∃ s, run step State.initial twoThreads = some s ∧ s.returned.length = 4 ∧ s.Unrepeated := by
  refine ⟨_, rfl, rfl, @seqnoalloc_unrepeated twoThreads _ ?_ rfl⟩
  simp [Admitted, twoThreads, firstCall, step, State.Sound, initial, restart,
    finish, lockedBody, initSeqno, extendLimit, Io.ok, SEQNO_SYNC_INTERVAL,
    update_apply]

/-- A call creates the container, the store restarts, and two calls follow. -/
def twoCallsAfterRestart : List Action :=
  firstCall 0 ++ [.restart] ++ firstCall 0 ++ [.fetchAndAdd 0, .test 0]

/-- The two calls after the restart return the same number. -/
theorem seqnoalloc_repeats_after_restart :
    ∃ s, run step State.initial twoCallsAfterRestart = some s ∧
      s.returned = [⟨1, 100000000000⟩, ⟨1, 100000000000⟩, ⟨0, 0⟩] ∧ ¬ s.Unrepeated := by
  refine ⟨_, rfl, rfl, ?_⟩
  decide

end Zetascale.Seqno
