import Zetascale.Lib.Machine

/-!
# Syncing an NVRAM buffer

`nvr_sync_buf_internal` in `nvr_svc.c`, with `hw_durable`, under copies that move `nso_off` on. One
thread syncs at a time; the others wait for it, or find that `nso_syncoff` has reached their offset.
That `nvr_disabled` is set after a failure keeps out only those who call later.
-/

namespace Zetascale.Logging

open Function

/-- A call; `none` is an offset of -1. A split overwrites `off`. -/
structure SyncCall where
  asked : Option ℕ
  alignedDown : Bool
  off : Option ℕ := asked
  flag : ℕ := 0

/-- Where a thread is. -/
inductive SyncPc
  | idle
  | restart (call : SyncCall)
  | syncing (call : SyncCall) (tmpSyncoff : ℕ)
  | returned (asked ret : Option ℕ)

/-- `nvrso_t`; every byte below `durable` is on the device. -/
structure NvrObj (T : Type) where
  nsoOff : ℕ := 0
  nsoSyncoff : ℕ := 0
  nsoInsync : Bool := false
  durable : ℕ := 0
  pc : T → SyncPc := fun _ => .idle

/-- A copy to the buffer, or a step of a thread. With `write` go `pwrite` and `fdatasync`. -/
inductive SyncAction (T : Type)
  | copy (count : ℕ)
  | call (t : T) (off : Option ℕ) (alignedDown : Bool)
  | check (t : T)
  | write (t : T) (succeeds : Bool)

variable {T : Type} {blksize : ℕ} {so next : NvrObj T}

namespace NvrObj

def reached (so : NvrObj T) : Option ℕ → Bool
  | some off => off ≤ so.nsoSyncoff
  | none => so.nsoSyncoff = so.nsoOff

/-- The sync may go to a block boundary first. -/
def splits (blksize : ℕ) (so : NvrObj T) : Bool :=
  so.nsoOff % blksize ≠ 0 ∧
    (so.nsoSyncoff % blksize = 0 ∧ so.nsoSyncoff + blksize < so.nsoOff ∨
      so.nsoSyncoff % blksize ≠ 0 ∧ (so.nsoSyncoff + blksize - 1) / blksize * blksize < so.nsoOff)

variable [DecidableEq T]

def step (blksize : ℕ) (so : NvrObj T) : SyncAction T → Option (NvrObj T)
  | .copy count => some { so with nsoOff := so.nsoOff + count }
  | .call t off alignedDown =>
    match so.pc t with
    | .restart _ | .syncing _ _ => none
    | _ => some { so with pc := update so.pc t (.restart { asked := off, alignedDown }) }
  | .check t =>
    match so.pc t with
    | .restart call =>
      if so.reached call.off then
        some { so with pc := update so.pc t (.returned call.asked (some so.nsoSyncoff)) }
      -- waits for `nso_sync_cond`
      else if so.nsoInsync then none
      else
        let boundary := so.nsoOff / blksize * blksize
        let pc := if call.flag = 0 ∧ so.splits blksize then
            .syncing { call with off := some (boundary + 1), flag := 1 } boundary
          else .syncing call so.nsoOff
        some { so with nsoInsync := true, pc := update so.pc t pc }
    | _ => none
  | .write t succeeds =>
    match so.pc t with
    | .syncing call tmpSyncoff =>
      let pc := if succeeds = false then .returned call.asked none
        else if call.flag = 1 ∧ call.alignedDown = false then .restart { call with flag := 2 }
        else .returned call.asked (some tmpSyncoff)
      some { so with
        -- also after a failure
        nsoSyncoff := tmpSyncoff
        nsoInsync := false
        durable := if succeeds ∧ so.nsoSyncoff / blksize * blksize ≤ so.durable then
          max so.durable tmpSyncoff else so.durable
        pc := update so.pc t pc }
    | _ => none

end NvrObj

/-- Who is told that the bytes below an offset are synced is told the truth. -/
def NvrObj.Truthful (so : NvrObj T) : Prop :=
  ∀ t off ret, so.pc t = .returned (some off) (some ret) → off ≤ ret → off ≤ so.durable

/-- The device does what it is told. -/
def Succeeds (_ : NvrObj T) : SyncAction T → Prop
  | .write _ succeeds => succeeds = true
  | _ => True

/-- What `nso_syncoff` and the calls say is on the device. -/
structure Synced (so : NvrObj T) : Prop where
  syncoff : so.nsoSyncoff ≤ so.durable
  returned : ∀ t asked ret, so.pc t = .returned asked (some ret) → ret ≤ so.durable

variable [DecidableEq T]

theorem Synced.goto (synced : Synced so) {t : T} {pc : SyncPc} (durable : so.durable ≤ next.durable)
    (syncoff : next.nsoSyncoff ≤ next.durable) (moved : next.pc = update so.pc t pc)
    (here : ∀ asked ret, pc = .returned asked (some ret) → ret ≤ next.durable) : Synced next := by
  refine ⟨syncoff, fun t' asked ret returned => ?_⟩
  rw [moved, update_apply] at returned
  split at returned
  · exact here asked ret returned
  · exact (synced.returned t' asked ret returned).trans durable

theorem Synced.step (synced : Synced so) {action : SyncAction T} (succeeds : Succeeds so action)
    (taken : so.step blksize action = some next) : Synced next := by
  cases action with
  | copy count =>
    cases taken
    exact { synced with }
  | call t off alignedDown =>
    simp only [NvrObj.step] at taken
    split at taken <;> cases taken
    exact synced.goto le_rfl synced.syncoff rfl nofun
  | check t =>
    simp only [NvrObj.step] at taken
    split at taken
    · split_ifs at taken <;> cases taken
      · refine synced.goto le_rfl synced.syncoff rfl fun asked ret returned => ?_
        cases returned
        exact synced.syncoff
      · exact synced.goto le_rfl synced.syncoff rfl nofun
      · exact synced.goto le_rfl synced.syncoff rfl nofun
    · cases taken
  | write t ok =>
    obtain rfl : ok = true := succeeds
    simp only [NvrObj.step] at taken
    split at taken <;> cases taken
    have start : so.nsoSyncoff / blksize * blksize ≤ so.durable :=
      (Nat.div_mul_le_self _ _).trans synced.syncoff
    simp only [start, and_self, if_true, Bool.true_eq_false, if_false]
    refine synced.goto (le_max_left _ _) (le_max_right _ _) rfl fun asked ret returned => ?_
    split at returned <;> cases returned
    exact le_max_right _ _

/-- As long as no write to the device fails, the result of a sync is truthful. -/
theorem truthful_of_succeeds {actions : List (SyncAction T)} {final : NvrObj T}
    (succeed : Machine.Admitted (NvrObj.step blksize) Succeeds {} actions)
    (reached : Machine.run (NvrObj.step blksize) {} actions = some final) : final.Truthful := by
  have synced := Machine.run_induction (fun synced ok taken => Synced.step synced ok taken)
    ⟨le_rfl, nofun⟩ succeed reached
  exact fun t off ret returned le => le.trans (synced.returned t _ ret returned)

/-- A sync of 20 bytes in blocks of 8 goes to the boundary first; another thread finds its bytes
synced. -/
theorem truthful_of_succeeds_split :
    ∃ final : NvrObj Bool, final.durable = 20 ∧ final.pc true = .returned (some 20) (some 20) ∧
      final.Truthful := by
  have succeed : Machine.Admitted (NvrObj.step 8) Succeeds ({} : NvrObj Bool)
      [.copy 20, .call true (some 20) false, .check true, .write true true, .check true,
        .call false (some 12) false, .check false, .write true true] := by
    simp [Machine.Admitted, Succeeds, NvrObj.step]
  exact ⟨_, rfl, rfl, truthful_of_succeeds succeed rfl⟩

/-- A thread that waits for a sync that fails is told that its bytes are synced. -/
theorem waiter_of_failed_sync :
    ∃ final : NvrObj Bool, Machine.run (NvrObj.step 8) {}
        [.copy 5, .call true (some 5) false, .check true, .call false (some 5) false,
          .write true false, .check false] = some final ∧
      final.pc false = .returned (some 5) (some 5) ∧ final.durable = 0 ∧ ¬ final.Truthful := by
  refine ⟨_, rfl, rfl, rfl, fun truthful => ?_⟩
  have synced := truthful false 5 5 rfl le_rfl
  cases synced

end Zetascale.Logging
