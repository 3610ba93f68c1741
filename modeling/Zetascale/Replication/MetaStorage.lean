import Zetascale.Replication.KeyLock

/-!
# Shard meta-data storage

A shard's meta-data (which node is its home, under which lease) is kept by one
storage node. `meta_storage.c` queues the create, put and get requests for the
shard, examines them one at a time, writes an allowed update to flash and makes it
the record once flash has answered. Next to the record it keeps a lease flag, the
time at which the lease ends and the timer event that will say so; the timer, the
deaths of nodes and a lazy check of the clock before each request change record
and flag in between.

The handlers are modelled for one shard. Each is a function from the shard to the
shard and the replies it sent, and `none` where an assertion fails or the process
ends itself. The clock is a sequence of readings of which the shard consumes the
next at each call of `gettime`, and the sequence may go backwards. Reference
counts, the beacon, the notifications of other nodes and logging are left out, and
so are shutdown and deletion of the shard, which leave their states here.
-/

namespace Zetascale.MetaStorage

open Replication (SdfReplication)

/-- What `RRTF_INDEX_*` says a shard is found by. -/
inductive RrtfIndex where
  | none
  | shardid
  | vipGroupId
deriving DecidableEq

/-- Where `RRTF_META_*` says the meta-data lives. -/
inductive RrtfMeta where
  | none
  | super
  | paxos
  | distributed
deriving DecidableEq

/-- `rms_replication_type_flags`, by `RMS_REPLICATION_TYPE_ITEMS`. -/
def rmsReplicationTypeFlags : SdfReplication → Option (RrtfIndex × RrtfMeta)
  | .none => some (.none, .none)
  | .simple => some (.none, .none)
  | .metaSuperNode => some (.shardid, .super)
  | .metaExternalAuthority => some (.shardid, .none)
  | .metaConsensus => some (.shardid, .paxos)
  | .v12Way => some (.vipGroupId, .distributed)
  | .v1NPlus1 => some (.vipGroupId, .distributed)
  | .consensus => some (.shardid, .paxos)
  | .invalid => .none

def CR_HOME_NODE_NONE : ℤ := -1

def VIP_GROUP_ID_INVALID : ℤ := -1

def SDF_SHARDID_VIP_GROUP_OFFSET : ℤ := 3 * 2 ^ 62

def MILLION : ℕ := 1000000

/-- `rms_tv_infinite`, in microseconds. -/
def rmsTvInfinite : ℕ := 2147483647 * MILLION + (MILLION - 1)

/-- The persistent part of `struct cr_shard_meta`, as far as the storage node
reads it. -/
structure CrShardMeta where
  sguid : ℤ
  intraNodeVipGroupId : ℤ
  type : SdfReplication
  /-- `meta_pnodes[0]`. -/
  metaPnode : ℤ
  currentHomeNode : ℤ
  lastHomeNode : ℤ
  writeNode : ℤ
  leaseUsecs : UInt64
  leaseLiveness : Bool
  ltime : UInt32
  shardMetaSeqno : UInt32

/-- `enum rms_op_type`. -/
inductive RmsOpType where
  | create
  | get
  | put
  | reput
  | delete
deriving DecidableEq

/-- `rms_op_type_is_put`. -/
def RmsOpType.isPut : RmsOpType → Bool
  | .create | .put | .reput => true
  | .get | .delete => false

/-- The statuses that the storage node tells apart. -/
inductive RmsStatus where
  | success
  | shutdown
  | shardDoesNotExist
  | containerExists
  | leaseExists
  | updateDuplicate
  | badMetaSeqno
  | badLtime
  | containerUnknown
  | shardNotFound
  | objectUnknown
  | failureStorageWrite
  | other (code : ℕ)
deriving DecidableEq

/-- `struct rms_op`. `source` is whom to answer; the puts that the storage node
makes itself answer nobody. -/
structure RmsOp where
  opType : RmsOpType
  shardMeta : Option CrShardMeta
  source : Option ℕ

/-- `enum rms_shard_state`. -/
inductive RmsShardState where
  | initial
  | noFormat
  | noMeta
  | normal
  | toShutdown
  | deleted
deriving DecidableEq

/-- The flash requests of a shard. -/
inductive FlashRequest where
  | hfgff
  | hfcsh
  | hfset

/-- `struct rms_shard`. `reads` counts the clock readings made so far and
`nextEvent` names the next timer event. -/
structure RmsShard where
  sguid : ℤ
  state : RmsShardState
  shardMeta : Option CrShardMeta
  opMsgtype : Option FlashRequest
  blockedOps : List RmsOp
  leaseExists : Bool
  expires : ℕ
  timeoutEvent : Option ℕ
  nextEvent : ℕ
  reads : ℕ

/-- The fields of `rms->config` that are read. -/
structure RmsConfig where
  myNode : ℤ
  metaByMessage : Bool

/-- What `rms_op_end` hands to the requester. -/
structure RmsReply where
  op : RmsOp
  status : RmsStatus
  shardMeta : Option CrShardMeta
  expires : ℕ
  /-- How often the shard had read the clock by then. -/
  reads : ℕ

/-- `rms_op_end`; taking the operation off the queue is the caller's part. -/
def rmsOpEnd (shard : RmsShard) (op : RmsOp) (status : RmsStatus) : RmsReply where
  op := op
  status := status
  shardMeta := shard.shardMeta
  expires := shard.expires
  reads := shard.reads

section

variable (rms : RmsConfig) (clock : ℕ → ℕ)

/-- `rms_shard_lease_cancel_timeout`. -/
def rmsShardLeaseCancelTimeout (shard : RmsShard) : RmsShard :=
  { shard with timeoutEvent := none }

/-- `rms_shard_lease_update`: a lease whose time is over is dropped from the record,
another one is noted with the time it has left. -/
def rmsShardLeaseUpdate (shard : RmsShard) : RmsShard :=
  match shard.shardMeta with
  | some record =>
    if shard.leaseExists then
      let now := clock shard.reads
      if shard.expires ≤ now then
        { shard with
          reads := shard.reads + 1
          leaseExists := false
          shardMeta := some { record with
            currentHomeNode := CR_HOME_NODE_NONE
            leaseUsecs := 0 } }
      else
        { shard with
          reads := shard.reads + 1
          shardMeta := some { record with leaseUsecs := UInt64.ofNat (shard.expires - now) } }
    else shard
  | none => shard

/-- The end of a timed lease. `now.tv_usec + lease_usecs` is computed in 64 bits. -/
def leaseEnd (now : ℕ) (leaseUsecs : UInt64) : ℕ :=
  now / MILLION * MILLION + (now % MILLION + leaseUsecs.toNat) % 2 ^ 64

/-- `rms_shard_schedule_lease_timeout` for the given record. -/
def rmsShardScheduleLeaseTimeout (shard : RmsShard) (record : CrShardMeta) : RmsShard :=
  if record.leaseUsecs = 0 then
    { rmsShardLeaseCancelTimeout shard with
      shardMeta := some record
      leaseExists := false }
  else
    let now := clock shard.reads
    { rmsShardLeaseCancelTimeout shard with
      reads := shard.reads + 1
      leaseExists := true
      expires := if record.leaseLiveness then rmsTvInfinite else leaseEnd now record.leaseUsecs
      shardMeta := some (if record.leaseLiveness then
        { record with leaseUsecs := UInt64.ofInt ((rmsTvInfinite : ℤ) - now) } else record)
      timeoutEvent := some shard.nextEvent
      nextEvent := shard.nextEvent + 1 }

end

/-- The equivalence that `rms_op_allowed` asserts before it looks at a request. -/
def RmsShard.leaseAsserted (shard : RmsShard) : Bool :=
  shard.leaseExists == shard.shardMeta.any (·.currentHomeNode != CR_HOME_NODE_NONE)

/-- The rules of `rms_op_allowed` for an update of an existing record. The third is the
split-brain rule, which rewrites the request. -/
def allowedOver (rms : RmsConfig) (shard : RmsShard) (record : CrShardMeta) (op : RmsOp)
    (request : CrShardMeta) (distributed : Bool) : Option (RmsOp × RmsStatus) :=
  if op.opType = .create ∧ distributed = false then some (op, .containerExists)
  else if request.currentHomeNode = CR_HOME_NODE_NONE ∧ shard.leaseExists = true ∧
      request.writeNode ≠ record.currentHomeNode then some (op, .leaseExists)
  else if distributed = true ∧ request.writeNode ≠ rms.myNode ∧
      record.currentHomeNode = rms.myNode ∧ request.currentHomeNode ≠ rms.myNode then
    if request.currentHomeNode = CR_HOME_NODE_NONE then none
    else
      some ({ op with
        opType := .put
        shardMeta := some { request with
          currentHomeNode := record.currentHomeNode
          lastHomeNode := record.lastHomeNode
          writeNode := rms.myNode
          leaseUsecs := 1
          leaseLiveness := false } }, .success)
  else if distributed = true ∧ op.opType = .reput ∧
      request.currentHomeNode = CR_HOME_NODE_NONE ∧
      record.currentHomeNode = CR_HOME_NODE_NONE then some (op, .updateDuplicate)
  else if distributed = true then some (op, .success)
  else if op.opType = .reput then some (op, .success)
  else if shard.leaseExists = true ∧ request.currentHomeNode ≠ record.currentHomeNode ∧
      (record.leaseLiveness = false ∨ request.currentHomeNode ≠ CR_HOME_NODE_NONE) then
    some (op, .leaseExists)
  else if request.shardMetaSeqno ≠ record.shardMetaSeqno + 1 then some (op, .badMetaSeqno)
  else if shard.leaseExists = false ∧ request.currentHomeNode ≠ record.currentHomeNode ∧
      request.ltime ≠ record.ltime + 1 then some (op, .badLtime)
  else some (op, .success)

/-- `rms_op_allowed` for a create, put or reput. -/
def rmsOpAllowed (rms : RmsConfig) (shard : RmsShard) (op : RmsOp) (request : CrShardMeta) :
    Option (RmsOp × RmsStatus) :=
  match rmsReplicationTypeFlags request.type with
  | none => none
  | some (_, storage) =>
    if op.opType = .reput ∧ storage ≠ .distributed then none
    else if shard.leaseAsserted = false then none
    else
      match shard.state, shard.shardMeta with
      | .normal, none => none
      | .normal, some record =>
        allowedOver rms shard record op request (storage = .distributed)
      | _, _ => some (op, .success)

/-- What `rms_shard_put_complete` asserts: record and state tell the same story, and the
update is still one that `rms_op_allowed` would let pass. -/
def RmsShard.putAsserted (shard : RmsShard) (request : CrShardMeta) (storage : RrtfMeta) : Bool :=
  match shard.shardMeta with
  | none => shard.state = .noMeta
  | some record =>
    shard.state = .normal ∧
    (shard.leaseExists = false ∨ record.currentHomeNode = request.currentHomeNode ∨
      (record.leaseLiveness = true ∧ request.currentHomeNode = CR_HOME_NODE_NONE) ∨
      storage = .distributed) ∧
    (request.shardMetaSeqno = record.shardMetaSeqno + 1 ∨ storage = .distributed)

/-- `rms_shard_put_complete`. -/
def rmsShardPutComplete (clock : ℕ → ℕ) (shard : RmsShard) (op : RmsOp) (status : RmsStatus) :
    Option (RmsShard × RmsReply) :=
  match op.opType.isPut, op.shardMeta with
  | true, some request =>
    match rmsReplicationTypeFlags request.type with
    | none => none
    | some (_, storage) =>
      if shard.putAsserted request storage then
        let after := if status = .success then
          rmsShardScheduleLeaseTimeout clock { shard with state := .normal } request else shard
        some (after, rmsOpEnd after op status)
      else none
  | _, _ => none

/-- What came of the operation at the head of the queue: it ended, or it waits for
flash to answer a request. -/
inductive Examined where
  | ended (shard : RmsShard) (reply : RmsReply)
  | sent (shard : RmsShard) (request : FlashRequest) (op : RmsOp)

variable (rms : RmsConfig) (clock : ℕ → ℕ)

/-- The part of the loop of `rms_shard_do_work` that looks at a create, put or reput
which has meta-data to work on. -/
def examinePut (shard : RmsShard) (op : RmsOp) : Option Examined :=
  match op.shardMeta with
  | none => none
  | some request =>
    let shard := rmsShardLeaseUpdate clock shard
    match rmsOpAllowed rms shard op request with
    | none => none
    | some (op, .success) =>
      match op.shardMeta.bind fun request => rmsReplicationTypeFlags request.type with
      | some (_, .distributed) =>
        (rmsShardPutComplete clock shard op .success).map fun done => .ended done.1 done.2
      | _ => some (.sent shard .hfset op)
    | some (op, refusal) => some (.ended shard (rmsOpEnd shard op refusal))

/-- A put or create with distributed meta-data does not look at flash first. -/
def startState (shard : RmsShard) (op : RmsOp) : Option RmsShardState :=
  match shard.state, op.opType.isPut, op.shardMeta with
  | _, true, none => none
  | .initial, true, some request =>
    (rmsReplicationTypeFlags request.type).map fun flags =>
      if flags.2 = .distributed then .noMeta else .initial
  | state, _, _ => some state

/-- The rest of a turn, by the state of the shard. -/
def examineIn (shard : RmsShard) (op : RmsOp) : Option Examined :=
  let creates := op.opType = .create ∨ op.opType = .reput
  match shard.state with
  | .toShutdown => some (.ended shard (rmsOpEnd shard op .shutdown))
  | .deleted => some (.ended shard (rmsOpEnd shard op .shardDoesNotExist))
  | .initial => some (.sent shard .hfgff op)
  | .noFormat =>
    if creates then some (.sent shard .hfcsh op)
    else some (.ended shard (rmsOpEnd shard op .shardDoesNotExist))
  | .noMeta =>
    if creates then examinePut rms clock shard op
    else some (.ended shard (rmsOpEnd shard op .shardDoesNotExist))
  | .normal =>
    match op.opType with
    | .create | .put | .reput => examinePut rms clock shard op
    | .get =>
      let shard := rmsShardLeaseUpdate clock shard
      some (.ended shard (rmsOpEnd shard op .success))
    -- `plat_assert_always(0)`: there is no delete
    | .delete => none

/-- One turn of the loop of `rms_shard_do_work`. -/
def examine (shard : RmsShard) (op : RmsOp) : Option Examined :=
  (startState shard op).bind fun state => examineIn rms clock { shard with state := state } op

/-- The loop of `rms_shard_do_work` over the queue. -/
def workThrough : RmsShard → List RmsOp → Option (RmsShard × List RmsReply)
  | shard, [] => some ({ shard with blockedOps := [] }, [])
  | shard, op :: rest =>
    match examine rms clock shard op with
    | none => none
    | some (.ended shard reply) =>
      (workThrough shard rest).map fun done => (done.1, reply :: done.2)
    | some (.sent shard request op) =>
      some ({ shard with opMsgtype := some request, blockedOps := op :: rest }, [])

/-- `rms_shard_do_work` without a new operation. -/
def rmsShardDoWork (shard : RmsShard) : Option (RmsShard × List RmsReply) :=
  if shard.opMsgtype = none then workThrough rms clock shard shard.blockedOps
  else some (shard, [])

/-- `rms_queue_local_op`: a get is answered at once when there is a record. -/
def rmsQueueLocalOp (shard : RmsShard) (op : RmsOp) : Option (RmsShard × List RmsReply) :=
  if op.opType = .get ∧ shard.shardMeta.isSome then
    let shard := rmsShardLeaseUpdate clock shard
    (rmsShardDoWork rms clock shard).map fun done =>
      (done.1, rmsOpEnd shard op .success :: done.2)
  else rmsShardDoWork rms clock { shard with blockedOps := shard.blockedOps ++ [op] }

/-- The `op->sguid` that `rms_modify_shard_meta` looks the shard up by. -/
def opSguid (index : RrtfIndex) (update : CrShardMeta) : ℤ :=
  match index with
  | .vipGroupId => SDF_SHARDID_VIP_GROUP_OFFSET + update.intraNodeVipGroupId
  | .shardid => update.sguid
  | .none => 0

/-- `rms_put_shard_meta` by the storage node itself: what `rms_modify_shard_meta` and
`rms_queue_op` send to another node or to another shard does not come back to this one. -/
def rmsPutShardMeta (shard : RmsShard) (update : CrShardMeta) :
    Option (RmsShard × List RmsReply) :=
  match rmsReplicationTypeFlags update.type with
  | none => none
  | some (index, storage) =>
    let metaPnode := if storage = .distributed then rms.myNode else update.metaPnode
    if index = .vipGroupId ∧ update.intraNodeVipGroupId = VIP_GROUP_ID_INVALID then none
    else if metaPnode ≠ rms.myNode ∨ rms.metaByMessage = true ∨
        opSguid index update ≠ shard.sguid then
      some (shard, [])
    else
      rmsQueueLocalOp rms clock shard { opType := .put, shardMeta := some update, source := none }

/-- The update by which `rms_shard_set_lease_none` makes the loss of the home durable. -/
def noneUpdate (record : CrShardMeta) : CrShardMeta :=
  { record with
    lastHomeNode := record.currentHomeNode
    currentHomeNode := CR_HOME_NODE_NONE
    writeNode := rms.myNode
    leaseUsecs := 0
    ltime := record.ltime + 1
    shardMetaSeqno := record.shardMetaSeqno + 1 }

/-- `rms_shard_set_lease_none`. -/
def rmsShardSetLeaseNone (shard : RmsShard) : Option (RmsShard × List RmsReply) :=
  match shard.shardMeta with
  | none => some (shard, [])
  | some record =>
    if shard.state = .deleted then some (shard, [])
    else
      rmsPutShardMeta rms clock
        { rmsShardLeaseCancelTimeout shard with
          leaseExists := false
          shardMeta := some { record with
            currentHomeNode := CR_HOME_NODE_NONE
            leaseUsecs := 0 } }
        (noneUpdate rms record)

/-- The part of `rms_shard_lease_expired_cb` after `rms_shard_lease_update`: where the
clock went backwards the lease is dropped all the same. -/
def dropLease (shard : RmsShard) : RmsShard :=
  if shard.leaseExists then
    { shard with
      leaseExists := false
      shardMeta := shard.shardMeta.map fun record => { record with leaseUsecs := 0 } }
  else shard

/-- `rms_shard_lease_expired_cb`. -/
def rmsShardLeaseExpiredCb (shard : RmsShard) (event : ℕ) : Option (RmsShard × List RmsReply) :=
  if shard.shardMeta = none ∧ shard.state ≠ .deleted then none
  else if shard.timeoutEvent = some event then
    rmsShardSetLeaseNone rms clock
      (dropLease (rmsShardLeaseUpdate clock (rmsShardLeaseCancelTimeout shard)))
  else some (shard, [])

/-- `rms_shard_node_dead`. -/
def rmsShardNodeDead (shard : RmsShard) (pnode : ℤ) : Option (RmsShard × List RmsReply) :=
  match shard.shardMeta with
  | some record =>
    if record.leaseLiveness = true ∧ record.currentHomeNode = pnode then
      rmsShardSetLeaseNone rms clock shard
    else some (shard, [])
  | none => some (shard, [])

/-- A flash response: its status and, for a successful `HFGFF`, what
`cr_shard_meta_unmarshal` makes of the data, an error code or a record. -/
structure FlashReply where
  status : RmsStatus
  content : Except ℕ CrShardMeta

/-- `rms_shard_flash_response` up to the point where it calls `rms_shard_do_work`: the
shard with the queue that is left, and the reply if the operation ended. -/
def flashResponded (shard : RmsShard) (op : RmsOp) (rest : List RmsOp) (request : FlashRequest)
    (reply : FlashReply) : Option (RmsShard × List RmsReply) :=
  let creates := op.opType = .create ∨ op.opType = .reput
  let ended (status : RmsStatus) : Option (RmsShard × List RmsReply) :=
    some ({ shard with blockedOps := rest }, [rmsOpEnd shard op status])
  if shard.state = .toShutdown then ended .shutdown
  else
    match request with
    | .hfgff =>
      if shard.state ≠ .initial ∨ shard.shardMeta.isSome then none
      else if reply.status = .containerUnknown ∨ reply.status = .shardNotFound ∨
          (reply.status = .objectUnknown ∧ creates) then
        some ({ shard with state := .noFormat }, [])
      else if reply.status = .objectUnknown then some ({ shard with state := .noMeta }, [])
      else if reply.status ≠ .success then ended reply.status
      else
        match reply.content with
        | .error code => ended (.other code)
        | .ok record =>
          some (rmsShardScheduleLeaseTimeout clock { shard with state := .normal } record, [])
    | .hfcsh =>
      if ¬ creates ∨ shard.state ≠ .noFormat ∨ shard.shardMeta.isSome then none
      else if reply.status = .success ∨ reply.status = .failureStorageWrite then
        some ({ shard with state := .noMeta }, [])
      else ended reply.status
    | .hfset =>
      (rmsShardPutComplete clock shard op reply.status).map fun done =>
        ({ done.1 with blockedOps := rest }, [done.2])

/-- `rms_shard_flash_response`. -/
def rmsShardFlashResponse (shard : RmsShard) (reply : FlashReply) :
    Option (RmsShard × List RmsReply) :=
  match shard.opMsgtype, shard.blockedOps with
  | some request, op :: rest =>
    match flashResponded clock shard op rest request reply with
    | none => none
    | some (after, replies) =>
      (rmsShardDoWork rms clock { after with opMsgtype := none }).map fun done =>
        (done.1, replies ++ done.2)
  | _, _ => none

end Zetascale.MetaStorage
