import Zetascale.Lib.Leases
import Zetascale.Lib.Machine
import Zetascale.Replication.MetaStorage

/-!
# A storage node and its environment

Requests arrive, flash answers, timers fire and nodes come and go in any order. A
world holds the shard, the list of live nodes and the history of leases: an update
enters the history when its request is answered with success, or when it is loaded
from flash.
-/

namespace Zetascale.MetaStorage

open Leases

/-- The lease that an update grants when it is accepted at `now`. -/
def CrShardMeta.term (request : CrShardMeta) (now : ℕ) : Option Term :=
  if request.leaseUsecs = 0 then none
  else if request.leaseLiveness then some .liveness
  else some (.timed (now + request.leaseUsecs.toNat))

def CrShardMeta.update (request : CrShardMeta) (now : ℕ) : Update ℤ where
  holder := if request.currentHomeNode = CR_HOME_NODE_NONE then none
    else some request.currentHomeNode
  writer := request.writeNode
  term := request.term now
  seqno := request.shardMetaSeqno.toNat

/-- The event of an update that is accepted after `reads` readings. The lease counts from
the next reading. -/
def CrShardMeta.event (clock : ℕ → ℕ) (request : CrShardMeta) (reads : ℕ) : Event ℤ :=
  .accepted (request.update (clock reads)) reads

/-- A put that is answered with success has been accepted. If it granted a lease the last
reading before the answer started it. -/
def RmsReply.accepted (clock : ℕ → ℕ) (reply : RmsReply) : Option (Event ℤ) :=
  if reply.op.opType.isPut = true ∧ reply.status = .success then
    reply.op.shardMeta.map fun request =>
      request.event clock (if request.leaseUsecs = 0 then reply.reads else reply.reads - 1)
  else none

structure StorageWorld where
  shard : RmsShard
  /-- `rms->live`. -/
  live : List ℤ
  /-- What happened to the leases, the newest event first. -/
  history : List (Event ℤ)

/-- What can happen at the storage node. -/
inductive StorageAction where
  | request (op : RmsOp)
  | flashResponse (reply : FlashReply)
  | leaseTimeout (event : ℕ)
  | nodeLive (node : ℤ)
  | nodeDead (node : ℤ)

section

variable (rms : RmsConfig) (clock : ℕ → ℕ)

/-- The world after a handler, with the updates that its replies accept. -/
def StorageWorld.after (world : StorageWorld) (done : RmsShard × List RmsReply) : StorageWorld :=
  { world with
    shard := done.1
    history := (done.2.filterMap (RmsReply.accepted clock)).reverse ++ world.history }

/-- The record that a successful `HFGFF` loads. -/
def StorageWorld.loaded (world : StorageWorld) (reply : FlashReply) : Option CrShardMeta :=
  match world.shard.opMsgtype, reply.status, reply.content with
  | some .hfgff, .success, .ok record => some record
  | _, _, _ => none

/-- `rms_node_live`. -/
def rmsNodeLive (live : List ℤ) (node : ℤ) : List ℤ :=
  if node ∈ live then live else live ++ [node]

def storageStep (world : StorageWorld) : StorageAction → Option StorageWorld
  | .request op => (rmsQueueLocalOp rms clock world.shard op).map (world.after clock)
  | .flashResponse reply =>
    let loaded := (world.loaded reply).toList.map fun record => record.event clock world.shard.reads
    (rmsShardFlashResponse rms clock world.shard reply).map
      ({ world with history := loaded ++ world.history }.after clock)
  -- the timer dispatcher makes a reading of its own before it fires the event
  | .leaseTimeout event =>
    (rmsShardLeaseExpiredCb rms clock { world.shard with reads := world.shard.reads + 1 } event).map
      (world.after clock)
  | .nodeLive node => some { world with live := rmsNodeLive world.live node }
  -- `rms_node_dead` passes on only the death of a node that was live
  | .nodeDead node =>
    if node ∈ world.live then
      (rmsShardNodeDead rms clock world.shard node).map
        ({ world with
          live := world.live.erase node
          history := .dead node :: world.history }.after clock)
    else some world

/-- The storage node before the first request for the shard. -/
def StorageWorld.fresh (sguid : ℤ) (live : List ℤ) : StorageWorld where
  shard :=
    { sguid := sguid
      state := .initial
      shardMeta := none
      opMsgtype := none
      blockedOps := []
      leaseExists := false
      expires := 0
      timeoutEvent := none
      nextEvent := 0
      reads := 0 }
  live := live
  history := []

/-- What the environment keeps to: requests are creates, puts and gets, creates and puts
carry meta-data, flash answers only when asked, and the timer fires only events it was
given and not before their time. -/
def StorageWorld.Legal (world : StorageWorld) : StorageAction → Prop
  | .request op => op.opType = .get ∨ ((op.opType = .create ∨ op.opType = .put) ∧ op.shardMeta.isSome)
  | .flashResponse _ => world.shard.opMsgtype ≠ none
  | .leaseTimeout event =>
    event < world.shard.nextEvent ∧
      (world.shard.timeoutEvent = some event → world.shard.expires ≤ clock world.shard.reads)
  | .nodeLive _ => True
  | .nodeDead _ => True

/-- The meta-data is not of a distributed type. -/
def CrShardMeta.Undistributed (request : CrShardMeta) : Prop :=
  ∃ index storage, rmsReplicationTypeFlags request.type = some (index, storage) ∧
    storage ≠ .distributed

/-- The update grants a lease just in case it names a home, and the clock does not get to
`rms_tv_infinite` if the lease is to last as long as its holder. -/
structure CrShardMeta.Proper (clock : ℕ → ℕ) (request : CrShardMeta) : Prop where
  leased : request.currentHomeNode = CR_HOME_NODE_NONE ↔ request.leaseUsecs = 0
  endless : request.leaseUsecs ≠ 0 → request.leaseLiveness = true →
    ∀ reading, clock reading < rmsTvInfinite

/-- The end of the lease can be computed without overflow. -/
def CrShardMeta.Fits (request : CrShardMeta) (now : ℕ) : Prop :=
  request.leaseUsecs ≠ 0 → request.leaseLiveness = false →
    now % MILLION + request.leaseUsecs.toNat < 2 ^ 64

/-- Accepting the update at `now` does not cut short the lease that the same home holds,
nor make it one of the other kind. -/
def RmsShard.Prolongs (shard : RmsShard) (record request : CrShardMeta) (now : ℕ) : Prop :=
  shard.leaseExists = true → record.currentHomeNode = request.currentHomeNode →
    request.leaseLiveness = record.leaseLiveness ∧
      (record.leaseLiveness = false → shard.expires ≤ now + request.leaseUsecs.toNat)

/-- The condition on an update that becomes the record. -/
structure RmsShard.Takes (clock : ℕ → ℕ) (shard : RmsShard) (request : CrShardMeta) : Prop where
  proper : request.Proper clock
  fits : request.Fits (clock shard.reads)
  seqno : ∀ record, shard.shardMeta = some record → record.shardMetaSeqno.toNat + 1 < 2 ^ 32
  prolongs : ∀ record, shard.shardMeta = some record →
    shard.Prolongs record request (clock shard.reads)

/-- The condition under which the lease is exclusive: no request is of a distributed type, and
an update that is written or loaded with success is one that the shard can take. -/
def StorageWorld.Orderly (world : StorageWorld) : StorageAction → Prop
  | .request op => ∀ request, op.shardMeta = some request → request.Undistributed
  | .flashResponse reply =>
    (∀ record, world.loaded reply = some record →
      record.Undistributed ∧ world.shard.Takes clock record) ∧
    (world.shard.opMsgtype = some .hfset → reply.status = .success →
      ∀ op rest request, world.shard.blockedOps = op :: rest → op.shardMeta = some request →
        world.shard.Takes clock request)
  | .leaseTimeout _ => True
  | .nodeLive _ => True
  | .nodeDead _ => True

end

/-- A lease exists exactly when the recorded home node is not none. -/
def RmsShard.LeaseIffHome (shard : RmsShard) : Prop :=
  shard.leaseExists = true ↔
    ∃ record, shard.shardMeta = some record ∧ record.currentHomeNode ≠ CR_HOME_NODE_NONE

end Zetascale.MetaStorage
