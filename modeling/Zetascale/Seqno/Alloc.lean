import Zetascale.Lib.Machine

/-!
# The sequence-number allocator

`seqnoalloc` (`btree/fdf_wrapper.c`) hands out the sequence numbers that order
the versions of a key. It draws from a shared counter with an atomic
fetch-and-add, and keeps a limit on flash in the object `SEQNO_KEY`: a number
at or above the limit is returned only after a new limit has been written.

A call is three atomic actions, which the threads interleave as they like: the
fetch-and-add, the unlocked test, and the body under `seqnolock`. A restart
resets the statics and loses every call in progress. The outcomes of the
container and object operations are part of the action.
-/

namespace Zetascale.Seqno

/-- How far a written limit reaches beyond the number that made it necessary. -/
def SEQNO_SYNC_INTERVAL : ℕ := 100000000000

/-- Where a thread stands in `seqnoalloc`. -/
inductive Call where
  | idle
  /-- The fetch-and-add gave `z`; the unlocked test comes next. -/
  | drawn (z : ℕ)
  /-- The unlocked test failed; the thread waits for `seqnolock`. -/
  | locking (z : ℕ)

/-- The number a call in progress has drawn. -/
def Call.number : Call → Option ℕ
  | .idle => none
  | .drawn z => some z
  | .locking z => some z

/-- A number that `seqnoalloc` returned, and the incarnation that returned it. -/
structure Returned where
  incarnation : ℕ
  value : ℕ

/-- The statics of `seqnoalloc`, its two durable objects, the calls in progress
and the history of returned numbers, newest first. -/
structure State where
  initialized : Bool
  seqnolimit : ℕ
  seqno : ℕ
  /-- `SEQNO_CONTAINER` has been created. -/
  container : Bool
  /-- The last value written to `SEQNO_KEY`. -/
  saved : Option ℕ
  calls : ℕ → Call
  incarnation : ℕ
  /-- This incarnation took its limit from `SEQNO_KEY`. -/
  recovered : Bool
  returned : List Returned

/-- A device on which nothing has been written yet. -/
def State.initial : State where
  initialized := false
  seqnolimit := 0
  seqno := 0
  container := false
  saved := none
  calls := fun _ => .idle
  incarnation := 0
  recovered := false
  returned := []

/-- Outcomes of the calls a body makes, in the order in which it makes them. -/
structure Io where
  opened : Bool
  read : Bool
  created : Bool
  written : Bool

/-- The `unless (initialized)` block for a call that drew `z`: the state after
it, and the number the call goes on with, or nothing when it returns -1. -/
def initSeqno (s : State) (z : ℕ) (io : Io) : State × Option ℕ :=
  if s.initialized then (s, some z)
  else if !io.opened then (s, none)
  else if s.container then
    match s.saved, io.read with
    | some limit, true =>
      -- `z = seqno = seqnolimit`: the counter is left at the number this call takes
      ({ s with seqnolimit := limit, seqno := limit, initialized := true, recovered := true },
        some limit)
    | _, _ => (s, none)
  else if io.created then ({ s with container := true, initialized := true }, some z)
  else (s, none)

/-- The `unless (z < seqnolimit)` block. A failed write zeroes the limit. -/
def extendLimit (s : State) (z : ℕ) (io : Io) : State × Option ℕ :=
  if z < s.seqnolimit then (s, some z)
  else if io.written then
    ({ s with seqnolimit := z + SEQNO_SYNC_INTERVAL, saved := some (z + SEQNO_SYNC_INTERVAL) },
      some z)
  else ({ s with seqnolimit := 0 }, none)

/-- The body under `seqnolock`. -/
def lockedBody (s : State) (z : ℕ) (io : Io) : State × Option ℕ :=
  match initSeqno s z io with
  | (s, none) => (s, none)
  | (s, some z) => extendLimit s z io

/-- Thread `t` returns from its call, with a number or with -1. -/
def State.finish (s : State) (t : ℕ) (result : Option ℕ) : State :=
  { s with
    calls := Function.update s.calls t .idle
    returned := (result.map (Returned.mk s.incarnation)).toList ++ s.returned }

/-- The statics go back to their initial values and every thread is gone. -/
def State.restart (s : State) : State :=
  { State.initial with
    container := s.container
    saved := s.saved
    incarnation := s.incarnation + 1
    returned := s.returned }

/-- What can happen next. -/
inductive Action where
  | fetchAndAdd (t : ℕ)
  | test (t : ℕ)
  | locked (t : ℕ) (io : Io)
  | restart

/-- One atomic action; a thread refuses an action it is not at. -/
def step (s : State) : Action → Option State
  | .fetchAndAdd t =>
    match s.calls t with
    | .idle => some { s with
        calls := Function.update s.calls t (.drawn s.seqno), seqno := s.seqno + 1 }
    | _ => none
  | .test t =>
    match s.calls t with
    | .drawn z =>
      if s.initialized && decide (z < s.seqnolimit) then some (s.finish t (some z))
      else some { s with calls := Function.update s.calls t (.locking z) }
    | _ => none
  | .locked t io =>
    match s.calls t with
    | .locking z => some ((lockedBody s z io).1.finish t (lockedBody s z io).2)
    | _ => none
  | .restart => some s.restart

/-- What callers rely on: no number comes twice, and a number returned after a
restart is above every number returned before it. -/
def State.Unrepeated (s : State) : Prop :=
  s.returned.Pairwise fun later earlier =>
    later.value ≠ earlier.value ∧
      (earlier.incarnation < later.incarnation → earlier.value < later.value)

instance (s : State) : Decidable s.Unrepeated := by
  unfold State.Unrepeated
  infer_instance

end Zetascale.Seqno
