import Mathlib

/-!
# Exclusive leases

A register names at most one holder. An accepted update names the next holder or
nobody, and may grant the holder a lease: until a moment of the clock, or for as
long as the holder lives. A history lists the accepted updates and the deaths of
nodes, the newest event first, and each update carries the number of clock readings
made before it. The register is exclusive when no update names somebody else while
a lease stands that has neither run out, nor been given back, nor lost its holder.

The clock is any sequence of readings, so that a lease has run out once some
reading has reached its end.
-/

namespace Zetascale.Leases

variable {Node : Type*}

/-- How long a lease lasts. -/
inductive Term where
  | timed (ends : ℕ)
  | liveness
deriving DecidableEq

structure Grant (Node : Type*) where
  holder : Node
  term : Term
deriving DecidableEq

structure Update (Node : Type*) where
  holder : Option Node
  writer : Node
  term : Option Term
  seqno : ℕ

inductive Event (Node : Type*) where
  /-- An update accepted after `reads` readings of the clock. -/
  | accepted (update : Update Node) (reads : ℕ)
  | dead (node : Node)

/-- The lease that an update grants. -/
def Update.grant (update : Update Node) : Option (Grant Node) :=
  update.holder.bind fun holder => update.term.map fun term => ⟨holder, term⟩

/-- Some reading so far has reached the end of the lease. -/
def Grant.Expired (clock : ℕ → ℕ) (reads : ℕ) (grant : Grant Node) : Prop :=
  ∃ ends, grant.term = .timed ends ∧ ∃ reading, reading < reads ∧ ends ≤ clock reading

section

variable [DecidableEq Node]

/-- The holder of a liveness lease gives it back by an update that names nobody. -/
def Grant.releasedBy (grant : Grant Node) (update : Update Node) : Bool :=
  grant.term = .liveness ∧ update.holder = none ∧ update.writer = grant.holder

/-- The death of its holder ends a liveness lease. -/
def Grant.diesWith (grant : Grant Node) (node : Node) : Bool :=
  grant.term = .liveness ∧ grant.holder = node

/-- The leases granted so far that were neither given back nor lost their holder;
the timed ones among them may have run out. -/
def standing : List (Event Node) → List (Grant Node)
  | [] => []
  | .accepted update _ :: history =>
    update.grant.toList ++ (standing history).filter fun grant => !grant.releasedBy update
  | .dead node :: history => (standing history).filter fun grant => !grant.diesWith node

/-- No accepted update named somebody other than the holder of a lease in force. -/
def Exclusive (clock : ℕ → ℕ) : List (Event Node) → Prop
  | [] => True
  | .accepted update reads :: history =>
    Exclusive clock history ∧ ∀ grant ∈ standing history, update.holder ≠ some grant.holder →
      grant.Expired clock reads ∨ grant.releasedBy update = true
  | .dead _ :: history => Exclusive clock history

end

/-- The sequence number of the last accepted update. -/
def lastSeqno : List (Event Node) → Option ℕ
  | [] => none
  | .accepted update _ :: _ => some update.seqno
  | .dead _ :: history => lastSeqno history

/-- The sequence numbers of accepted updates increase by one. -/
def Consecutive : List (Event Node) → Prop
  | [] => True
  | .accepted update _ :: history =>
    Consecutive history ∧ ∀ last, lastSeqno history = some last → update.seqno = last + 1
  | .dead _ :: history => Consecutive history

theorem Grant.Expired.mono {clock : ℕ → ℕ} {grant : Grant Node} {before after : ℕ}
    (expired : grant.Expired clock before) (later : before ≤ after) :
    grant.Expired clock after := by
  obtain ⟨ends, timed, reading, made, reached⟩ := expired
  exact ⟨ends, timed, reading, Nat.lt_of_lt_of_le made later, reached⟩

variable [DecidableEq Node] {history : List (Event Node)} {grant : Grant Node}

theorem mem_standing_dead {node : Node} : grant ∈ standing (.dead node :: history) ↔
      grant ∈ standing history ∧ grant.diesWith node = false := by
  simp [standing]

end Zetascale.Leases
