import Zetascale.Replication.LeaseWork

/-!
# Exclusive home-node leases

Whatever the order of requests, flash answers, timeouts and deaths, as long as the
updates are orderly the storage node never fails an assertion, never accepts an
update that takes over a lease in force, numbers the accepted updates one after the
other and holds a lease exactly when the record names a home.

The admission rules do not keep requests orderly. They take the kind of meta-data
from the request, they do not ask that a home comes with a lease, and they let a
home cut its own lease short; each of these loses one of the properties.
-/

namespace Zetascale.MetaStorage

open List Machine

open Replication (SdfReplication)
open Leases

variable {rms : RmsConfig} {clock : ℕ → ℕ} {shard after : RmsShard}
  {record request : CrShardMeta} {op : RmsOp} {history : List (Event ℤ)}
  {grants : List (Grant ℤ)} {last : Option ℕ}

/-- The shard and the history of its leases agree. -/
structure Agrees (clock : ℕ → ℕ) (shard : RmsShard) (history : List (Event ℤ)) : Prop where
  working : Working clock shard (standing history) (lastSeqno history)
  exclusive : Exclusive clock history
  consecutive : Consecutive history

def StorageWorld.Sound (clock : ℕ → ℕ) (world : StorageWorld) : Prop :=
  Agrees clock world.shard world.history

variable {world : StorageWorld}

/-- A handler that accepts nothing keeps the world sound. -/
theorem Works.sound {outcome : Option (RmsShard × List RmsReply)}
    (works : Works clock (standing world.history) (lastSeqno world.history) outcome)
    (exclusive : Exclusive clock world.history) (consecutive : Consecutive world.history) :
    ∃ next, outcome.map (world.after clock) = some next ∧ next.Sound clock := by
  obtain ⟨after, replies, rfl, working, nothing⟩ := works
  refine ⟨_, rfl, ?_⟩
  simp only [StorageWorld.Sound, StorageWorld.after, nothing, reverse_nil, nil_append]
  exact ⟨working, exclusive, consecutive⟩

/-! ### Timeouts and deaths -/

theorem tick_eases (shard : RmsShard) : Eases shard { shard with reads := shard.reads + 1 } :=
  { Eases.refl shard with reads := Nat.le_succ _ }

theorem cancelTimeout_eases (shard : RmsShard) : Eases shard (rmsShardLeaseCancelTimeout shard) :=
  { Eases.refl shard with }

theorem dropLease_eases (shard : RmsShard) : Eases shard (dropLease shard) := by
  unfold dropLease
  split
  · refine ⟨rfl, Nat.le_refl _, rfl, rfl, Option.map_eq_none_iff, ?_⟩
    intro record' stored'
    obtain ⟨record, stored, rfl⟩ := Option.map_eq_some_iff.mp stored'
    exact ⟨record, stored, rfl, rfl, nofun⟩
  · exact Eases.refl shard

theorem Held.tick (held : Held clock shard grants last) :
    Held clock { shard with reads := shard.reads + 1 } grants last := by
  rcases held with bare | ⟨record, kept⟩
  · exact .inl { bare with
      expired := fun grant stands => (bare.expired grant stands).mono (Nat.le_succ _) }
  · refine .inr ⟨record, { kept with covered := fun grant stands => ?_ }⟩
    rcases kept.covered grant stands with expired | covers
    · exact .inl (expired.mono (Nat.le_succ _))
    · exact .inr covers

theorem Held.subset {fewer : List (Grant ℤ)} (held : Held clock shard grants last)
    (among : ∀ grant ∈ fewer, grant ∈ grants) : Held clock shard fewer last := by
  rcases held with bare | ⟨record, kept⟩
  · exact .inl { bare with expired := fun grant stands => bare.expired grant (among grant stands) }
  · exact .inr ⟨record, { kept with
      covered := fun grant stands => kept.covered grant (among grant stands) }⟩

theorem Working.subset {fewer : List (Grant ℤ)} (working : Working clock shard grants last)
    (among : ∀ grant ∈ fewer, grant ∈ grants) : Working clock shard fewer last where
  held := working.held.subset among
  queue := working.queue
  flight := by
    intro flash waiting
    obtain ⟨op, rest, head, awaits⟩ := working.flight flash waiting
    exact ⟨op, rest, head, awaits.subset among⟩

/-- The timer fires. -/
theorem leaseExpiredCb_works (working : Working clock shard grants last) {event : ℕ}
    (given : event < shard.nextEvent)
    (due : shard.timeoutEvent = some event → shard.expires ≤ clock shard.reads) :
    Works clock grants last
      (rmsShardLeaseExpiredCb rms clock { shard with reads := shard.reads + 1 } event) := by
  rcases working.held with bare | ⟨record, kept⟩
  · cases bare.event ▸ given
  · unfold rmsShardLeaseExpiredCb
    have recorded : ¬(shard.shardMeta = none ∧ shard.state ≠ .deleted) := by simp [kept.recorded]
    rw [if_neg recorded]
    split
    · next fired =>
        let ticked : RmsShard := { shard with reads := shard.reads + 1 }
        have eases : Eases ticked
            (dropLease (rmsShardLeaseUpdate clock (rmsShardLeaseCancelTimeout ticked))) :=
          (cancelTimeout_eases ticked).trans ((leaseUpdate_eases _).trans (dropLease_eases _))
        have elapsed := kept.expired_of_reading (due fired)
        exact setLeaseNone_works working kept ((tick_eases shard).trans eases) (fun _ stands => stands)
          fun grant stands => (elapsed grant stands).mono eases.reads
    · exact ⟨_, [], rfl, working.eases (tick_eases shard) working.held.tick, rfl⟩

/-- The death of a node ends the leases that live with it, and only the record's own can be one. -/
theorem nodeDead_works {node : ℤ}
    (working : Working clock shard (standing history) (lastSeqno history)) :
    Works clock (standing (.dead node :: history)) (lastSeqno history)
      (rmsShardNodeDead rms clock shard node) := by
  have among : ∀ grant ∈ standing (.dead node :: history), grant ∈ standing history :=
    fun grant stands => (mem_standing_dead.mp stands).1
  have unchanged : Works clock (standing (.dead node :: history)) (lastSeqno history)
      (some (shard, [])) := ⟨shard, [], rfl, working.subset among, rfl⟩
  unfold rmsShardNodeDead
  rcases working.held with bare | ⟨record, kept⟩
  · rw [bare.unrecorded]
    exact unchanged
  · simp only [kept.recorded]
    split
    · next hit =>
        refine setLeaseNone_works working kept (Eases.refl shard) among fun grant stands => ?_
        obtain ⟨stood, survives⟩ := mem_standing_dead.mp stands
        rcases kept.covered grant stood with expired | ⟨_, home, lasts⟩
        · exact expired
        · cases term : grant.term with
          | timed ends =>
            rw [term, hit.1] at lasts
            cases lasts.1
          | liveness => simp [Grant.diesWith, term, ← home, hit.2] at survives
    · exact unchanged

/-! ### Answers of flash -/

/-- The shard once the answer has been dealt with, and the history with what it accepted. -/
def Answered (clock : ℕ → ℕ) (history : List (Event ℤ))
    (outcome : Option (RmsShard × List RmsReply)) : Prop :=
  ∃ after replies, outcome = some (after, replies) ∧
    Agrees clock { after with opMsgtype := none }
      ((replies.filterMap (RmsReply.accepted clock)).reverse ++ history)

/-- The operation ends, or stays at the head of the queue, and nothing is accepted. -/
theorem Agrees.answered (agrees : Agrees clock shard history) (held : Held clock after
      (standing history) (lastSeqno history)) (queue : ∀ op ∈ after.blockedOps, op.Plain)
    {replies : List RmsReply} (nothing : replies.filterMap (RmsReply.accepted clock) = []) :
    Answered clock history (some (after, replies)) := by
  refine ⟨after, replies, rfl, ?_⟩
  rw [nothing, reverse_nil, nil_append]
  exact ⟨⟨held.requeue none after.blockedOps, queue, nofun⟩, agrees.exclusive, agrees.consecutive⟩

/-- An update becomes the record and its event joins the history. -/
theorem accept_agrees (held : Held clock shard (standing history) (lastSeqno history))
    (exclusive : Exclusive clock history) (consecutive : Consecutive history)
    (undistributed : request.Undistributed) (takes : shard.Takes clock request)
    (compatible : Compatible clock shard (standing history) request) {queue : List RmsOp}
    (queued : ∀ op ∈ queue, op.Plain) :
    Agrees clock { rmsShardScheduleLeaseTimeout clock { shard with state := .normal } request with
      opMsgtype := none, blockedOps := queue } (request.event clock shard.reads :: history) := by
  have kept : ∃ record, Kept clock
      (rmsShardScheduleLeaseTimeout clock { shard with state := .normal } request)
      (standing (request.event clock shard.reads :: history))
      (lastSeqno (request.event clock shard.reads :: history)) record := by
    refine schedule_kept undistributed takes.proper takes.fits rfl
      (fun grant stands other => compatible.exclusive grant stands _ other) fun grant stands same => ?_
    rcases held with bare | ⟨record, kept⟩
    · exact .inl (bare.expired grant stands)
    · rcases kept.covered grant stands with expired | ⟨leased, renews⟩
      · exact .inl expired
      · have named : request.currentHomeNode = grant.holder := by
          simp only [CrShardMeta.update] at same
          split at same
          · cases same
          · exact Option.some.inj same
        have home := renews.1.trans named.symm
        obtain ⟨kind, longer⟩ := takes.prolongs record kept.recorded leased home
        exact .inr (CrShardMeta.Renews.mono renews home.symm kind longer)
  refine ⟨⟨Held.requeue (.inr kept) none queue, queued, by simp⟩, ⟨exclusive, ?_⟩, consecutive, ?_⟩
  · exact fun grant stands other => compatible.exclusive grant stands _ other
  · intro last accepted
    rcases held with bare | ⟨record, kept⟩
    · cases bare.seqno.symm.trans accepted
    · cases kept.seqno.symm.trans accepted
      have small := takes.seqno record kept.recorded
      have next := (compatible.next record kept.recorded).2
      show request.shardMetaSeqno.toNat = _
      rw [next, UInt32.toNat_add]
      exact Nat.mod_eq_of_lt small

variable {rest : List RmsOp} {reply : FlashReply}

section

variable (agrees : Agrees clock shard history)

include agrees

/-- The operation that waited for flash ends with an error. -/
theorem Agrees.ended
    (queue : shard.blockedOps = op :: rest) {status : RmsStatus} (refused : status ≠ .success) :
    Answered clock history (some ({ shard with blockedOps := rest }, [rmsOpEnd shard op status])) := by
  refine agrees.answered (agrees.working.held.requeue shard.opMsgtype rest) ?_ ?_
  · intro other queued
    exact agrees.working.queue other (by rw [queue]; exact mem_cons_of_mem op queued)
  · rw [filterMap_cons, accepted_of_refusal refused, filterMap_nil]

/-- Before there is a record the shard may go from one early state to another. -/
theorem Agrees.moved (unrecorded : shard.shardMeta = none)
    {state : RmsShardState} (early : state = .initial ∨ state = .noFormat ∨ state = .noMeta) :
    Held clock { shard with state := state } (standing history) (lastSeqno history) := by
  rcases agrees.working.held with bare | ⟨record, kept⟩
  · exact .inl { bare with state := early }
  · cases kept.recorded.symm.trans unrecorded

/-- No record is found. -/
theorem load_answered (awaits : Awaits clock shard (standing history) op .hfgff)
    (queue : shard.blockedOps = op :: rest)
    (empty : ∀ record, ¬(reply.status = .success ∧ reply.content = .ok record)) :
    Answered clock history (flashResponded clock shard op rest .hfgff reply) := by
  obtain ⟨state, unrecorded⟩ := awaits
  have stays (state : RmsShardState) (early : state = .initial ∨ state = .noFormat ∨ state = .noMeta) :
      Answered clock history (some ({ shard with state := state }, [])) :=
    agrees.answered (agrees.moved unrecorded early) agrees.working.queue rfl
  unfold flashResponded
  have started : ¬(shard.state ≠ .initial ∨ shard.shardMeta.isSome = true) := by
    simp [state, unrecorded]
  have open' : shard.state ≠ .toShutdown := by simp [state]
  simp only [if_neg open', if_neg started]
  split
  · exact stays .noFormat (.inr (.inl rfl))
  · split
    · exact stays .noMeta (.inr (.inr rfl))
    · split
      · next failed => exact agrees.ended queue failed
      · next success =>
          cases content : reply.content with
          | error code => exact agrees.ended queue (by simp)
          | ok record => exact absurd ⟨not_not.mp success, content⟩ (empty record)

/-- Whatever record a load brings is compatible, since there was none. -/
theorem load_accepted
    (awaits : Awaits clock shard (standing history) op .hfgff) (success : reply.status = .success)
    (content : reply.content = .ok record) (undistributed : record.Undistributed)
    (takes : shard.Takes clock record) : Answered clock (record.event clock shard.reads :: history)
      (flashResponded clock shard op rest .hfgff reply) := by
  obtain ⟨state, unrecorded⟩ := awaits
  have held : Held clock { shard with state := .noMeta } (standing history) (lastSeqno history) :=
    agrees.moved unrecorded (.inr (.inr rfl))
  have compatible : Compatible clock { shard with state := .noMeta } (standing history) record := by
    rcases held with bare | ⟨stored, kept⟩
    · exact bare.compatible rfl
    · cases kept.recorded.symm.trans unrecorded
  have queued : ∀ op ∈ (rmsShardScheduleLeaseTimeout clock { shard with state := .normal }
      record).blockedOps, op.Plain := by
    unfold rmsShardScheduleLeaseTimeout
    split <;> exact agrees.working.queue
  have started : ¬(shard.state ≠ .initial ∨ shard.shardMeta.isSome = true) := by
    simp [state, unrecorded]
  have open' : shard.state ≠ .toShutdown := by simp [state]
  unfold flashResponded
  simp only [if_neg open', if_neg started, success, content, reduceCtorEq, or_self, false_and, if_false,
    ne_eq, not_true_eq_false]
  exact ⟨_, [], rfl,
    accept_agrees held agrees.exclusive agrees.consecutive undistributed { takes with } compatible
      queued⟩

/-- The shard is formatted. -/
theorem format_answered (awaits : Awaits clock shard (standing history) op .hfcsh)
    (queue : shard.blockedOps = op :: rest) (reply : FlashReply) :
    Answered clock history (flashResponded clock shard op rest .hfcsh reply) := by
  obtain ⟨state, unrecorded, create⟩ := awaits
  have started : ¬(¬(op.opType = .create ∨ op.opType = .reput) ∨ shard.state ≠ .noFormat ∨
      shard.shardMeta.isSome = true) := by
    simp [create, state, unrecorded]
  have open' : shard.state ≠ .toShutdown := by simp [state]
  unfold flashResponded
  simp only [if_neg open', if_neg started]
  split
  · exact agrees.answered (agrees.moved unrecorded (.inr (.inr rfl))) agrees.working.queue rfl
  · next failed =>
      rw [not_or] at failed
      exact agrees.ended queue failed.1

end

/-- A compatible update passes the assertions. -/
theorem putAsserted_of_compatible (held : Held clock shard grants last)
    (compatible : Compatible clock shard grants request) (storage : RrtfMeta) :
    shard.putAsserted request storage = true := by
  unfold RmsShard.putAsserted
  rcases held with bare | ⟨record, kept⟩
  · rw [bare.unrecorded]
    exact decide_eq_true (compatible.bare bare.unrecorded)
  · obtain ⟨home, next⟩ := compatible.next record kept.recorded
    rw [kept.recorded]
    refine decide_eq_true ⟨kept.normal, ?_, .inl next⟩
    exact home.imp_right fun kept => kept.imp_right .inl

theorem accepted_of_schedule (isPut : op.opType.isPut = true)
    (carried : op.shardMeta = some request) :
    (rmsOpEnd (rmsShardScheduleLeaseTimeout clock shard request) op .success).accepted clock =
      some (request.event clock shard.reads) := by
  unfold RmsReply.accepted rmsOpEnd rmsShardScheduleLeaseTimeout
  by_cases unleased : request.leaseUsecs = 0
  · simp [isPut, carried, unleased, rmsShardLeaseCancelTimeout]
  · simp [isPut, carried, unleased]

/-- A record is stored. -/
theorem set_answered (agrees : Agrees clock shard history)
    (awaits : Awaits clock shard (standing history) op .hfset)
    (queue : shard.blockedOps = op :: rest)
    (takes : reply.status = .success → ∀ request, op.shardMeta = some request →
      shard.Takes clock request) :
    Answered clock history (flashResponded clock shard op rest .hfset reply) := by
  obtain ⟨isPut, request, carried, compatible⟩ := awaits
  have queued : ∀ other ∈ op :: rest, other.Plain := queue ▸ agrees.working.queue
  have undistributed : request.Undistributed := by
    rcases queued op mem_cons_self with get | ⟨_, request', carried', undistributed⟩
    · rw [get] at isPut
      cases isPut
    · cases carried.symm.trans carried'
      exact undistributed
  have ⟨index, storage, flags, _⟩ := undistributed
  have asserted := putAsserted_of_compatible agrees.working.held compatible storage
  have open' : shard.state ≠ .toShutdown := by
    rcases agrees.working.held with bare | ⟨record, kept⟩
    · rw [compatible.bare bare.unrecorded]
      simp
    · simp [kept.normal]
  unfold flashResponded
  simp only [if_neg open', rmsShardPutComplete, isPut, carried, flags, asserted, if_true,
    Option.map_some]
  by_cases success : reply.status = .success
  · simp only [success, if_true]
    refine ⟨_, _, rfl, ?_⟩
    rw [filterMap_cons, accepted_of_schedule isPut carried]
    exact accept_agrees agrees.working.held agrees.exclusive agrees.consecutive undistributed
      (takes success request carried) compatible fun other later => queued other (.tail op later)
  · simp only [if_neg success]
    exact agrees.ended queue success

/-- Once flash has answered, the shard goes on with its queue. -/
theorem flashResponse_sound (sound : world.Sound clock) (waiting : world.shard.opMsgtype ≠ none)
    (orderly : world.Orderly clock (.flashResponse reply)) :
    ∃ next, storageStep rms clock world (.flashResponse reply) = some next ∧ next.Sound clock := by
  obtain ⟨flash, asked⟩ := Option.ne_none_iff_exists'.mp waiting
  obtain ⟨op, rest, queue, awaits⟩ := sound.working.flight flash asked
  have answered : Answered clock
      ((world.loaded reply).toList.map (fun record => record.event clock world.shard.reads) ++
        world.history) (flashResponded clock world.shard op rest flash reply) := by
    cases flash with
    | hfgff =>
      cases loaded : world.loaded reply with
      | none =>
        refine load_answered sound awaits queue fun record brought => ?_
        simp [StorageWorld.loaded, asked, brought.1, brought.2] at loaded
      | some record =>
        obtain ⟨undistributed, takes⟩ := orderly.1 record loaded
        unfold StorageWorld.loaded at loaded
        split at loaded
        · next success content =>
            cases loaded
            exact load_accepted sound awaits success content undistributed takes
        · cases loaded
    | hfcsh =>
      have nothing : world.loaded reply = none := by simp [StorageWorld.loaded, asked]
      rw [nothing]
      exact format_answered sound awaits queue reply
    | hfset =>
      have nothing : world.loaded reply = none := by simp [StorageWorld.loaded, asked]
      rw [nothing]
      exact set_answered sound awaits queue fun success request carried =>
        orderly.2 asked success op rest request queue carried
  obtain ⟨after, replies, responded, agrees⟩ := answered
  obtain ⟨final, more, worked, working, nothing⟩ :
      Works clock _ _ (rmsShardDoWork rms clock { after with opMsgtype := none }) :=
    doWork_works agrees.working
  refine ⟨StorageWorld.after clock { world with
      history := (world.loaded reply).toList.map (fun record => record.event clock world.shard.reads) ++
        world.history } (final, replies ++ more), ?_, ?_⟩
  · simp [storageStep, rmsShardFlashResponse, asked, queue, responded, worked]
  · unfold StorageWorld.Sound StorageWorld.after
    simp only [filterMap_append, nothing, append_nil]
    exact ⟨working, agrees.exclusive, agrees.consecutive⟩

/-! ### Runs -/

/-- Every action that is legal and orderly can be taken and keeps the world sound. -/
theorem storageStep_sound {action : StorageAction} (sound : world.Sound clock)
    (legal : world.Legal clock action) (orderly : world.Orderly clock action) :
    ∃ next, storageStep rms clock world action = some next ∧ next.Sound clock := by
  cases action with
  | request op =>
    have plain : op.Plain := by
      rcases legal with get | ⟨asked, carries⟩
      · exact .inl get
      · obtain ⟨request, carried⟩ := Option.isSome_iff_exists.mp carries
        exact .inr ⟨asked, request, carried, orderly request carried⟩
    exact (queueLocalOp_works sound.working plain).sound sound.exclusive sound.consecutive
  | flashResponse reply => exact flashResponse_sound sound legal orderly
  | leaseTimeout event =>
    exact (leaseExpiredCb_works sound.working legal.1 legal.2).sound sound.exclusive sound.consecutive
  | nodeLive node => exact ⟨_, rfl, sound⟩
  | nodeDead node =>
    by_cases alive : node ∈ world.live
    · simp only [storageStep, if_pos alive]
      let buried : StorageWorld := { world with
        live := world.live.erase node
        history := .dead node :: world.history }
      have works : Works clock (standing buried.history) (lastSeqno buried.history)
          (rmsShardNodeDead rms clock world.shard node) := nodeDead_works sound.working
      exact works.sound sound.exclusive sound.consecutive
    · simp only [storageStep, if_neg alive]
      exact ⟨world, rfl, sound⟩

theorem fresh_sound (sguid : ℤ) (live : List ℤ) : (StorageWorld.fresh sguid live).Sound clock where
  working := ⟨.inl ⟨rfl, .inl rfl, rfl, rfl, rfl, forall_mem_nil _⟩, forall_mem_nil _, nofun⟩
  exclusive := trivial
  consecutive := trivial

/-- Home-node leases are exclusive, accepted updates are numbered one after the other, and a lease
exists exactly when the record names a home, after every legal and orderly history. No assertion
fails on the way, in particular not the one by which every examination of a request starts. -/
theorem lease_exclusive_of_orderly (sguid : ℤ) (live : List ℤ) (actions : List StorageAction)
    (admitted : Machine.Admitted (storageStep rms clock)
      (fun world action => world.Legal clock action ∧ world.Orderly clock action)
      (.fresh sguid live) actions) :
    ∃ world, run (storageStep rms clock) (.fresh sguid live) actions = some world ∧
      Exclusive clock world.history ∧ Consecutive world.history ∧ world.shard.LeaseIffHome := by
  obtain ⟨world, reached, sound⟩ := run_total
    (fun sound met => storageStep_sound sound met.1 met.2) (fresh_sound sguid live) admitted
  exact ⟨world, reached, sound.exclusive, sound.consecutive, sound.working.held.leaseIffHome⟩

/-- An update by `node` that makes it the home for `usecs`. -/
def claimHome (type : SdfReplication) (node : ℤ) (usecs : UInt64) (seqno : UInt32) : CrShardMeta where
  sguid := 8
  intraNodeVipGroupId := 0
  type := type
  metaPnode := 0
  currentHomeNode := node
  lastHomeNode := CR_HOME_NODE_NONE
  writeNode := node
  leaseUsecs := usecs
  leaseLiveness := false
  ltime := seqno
  shardMetaSeqno := seqno

/-- A create or put of the update. -/
def asks (opType : RmsOpType) (update : CrShardMeta) : StorageAction :=
  .request { opType := opType, shardMeta := some update, source := some 0 }

def answers (status : RmsStatus) : StorageAction :=
  .flashResponse { status := status, content := .error 0 }

/-- The shard is created with the update: flash knows nothing of it, formats the meta-data shard and
writes the record. -/
def creation (update : CrShardMeta) : List StorageAction :=
  [asks .create update, answers .objectUnknown, answers .success, answers .success]

/-- The world during the creation, in which the create waits for flash. -/
def creating (update : CrShardMeta) (state : RmsShardState) (flash : FlashRequest) : StorageWorld :=
  { StorageWorld.fresh 8 [0, 1] with
    shard := { (StorageWorld.fresh 8 [0, 1]).shard with
      state := state
      opMsgtype := some flash
      blockedOps := [{ opType := .create, shardMeta := some update, source := some 0 }] } }

def sampleConfig : RmsConfig := { myNode := 0, metaByMessage := false }

/-- The world while the lease with a record lasts. -/
def leased (record : CrShardMeta) (expires event reads : ℕ) (history : List (Event ℤ)) :
    StorageWorld where
  shard :=
    { (StorageWorld.fresh 8 [0, 1]).shard with
      state := .normal, shardMeta := some record, leaseExists := true, expires
      timeoutEvent := some event, nextEvent := event + 1, reads }
  live := [0, 1]
  history

/-- A clock that each reading finds five microseconds later. -/
def sampleClock (reading : ℕ) : ℕ := 5 * reading

/-- Node 1 becomes the home, … -/
def firstClaim : CrShardMeta := claimHome .metaSuperNode 1 10 0

/-- … and renews its lease. -/
def renewal : CrShardMeta := claimHome .metaSuperNode 1 10 1

/-- The events of both. -/
def granted : Event ℤ := firstClaim.event sampleClock 0

def renewed : Event ℤ := renewal.event sampleClock 2

abbrev sampleStep : StorageWorld → StorageAction → Option StorageWorld :=
  storageStep sampleConfig sampleClock

/-- The world while the renewal waits for flash; half of the first lease is over. -/
def renewing (history : List (Event ℤ)) : StorageWorld :=
  let before := leased { firstClaim with leaseUsecs := 5 } 10 0 2 history
  { before with
    shard := { before.shard with
      opMsgtype := some .hfset
      blockedOps := [{ opType := .put, shardMeta := some renewal, source := some 0 }] } }

/-- The lease is granted, renewed, and runs out: the event of the first lease is passed over, that of
the second one drops the home, which flash confirms. -/
def renewedLease : List StorageAction :=
  creation firstClaim ++
    [asks .put renewal, answers .success, .leaseTimeout 0, .leaseTimeout 1, answers .success]

/-- An answer without a record is orderly, if the update that it confirms can be taken. -/
theorem orderly_answers {world : StorageWorld} {status : RmsStatus}
    (takes : world.shard.opMsgtype = some .hfset → status = .success → ∀ op rest request,
      world.shard.blockedOps = op :: rest → op.shardMeta = some request →
        world.shard.Takes clock request) : world.Orderly clock (answers status) := by
  refine ⟨fun record loaded => ?_, takes⟩
  unfold StorageWorld.loaded at loaded
  split at loaded
  · next content => cases content
  · cases loaded

theorem lease_exclusive_when_renewed :
    ∃ world, run sampleStep (.fresh 8 [0, 1]) renewedLease = some world ∧
      Exclusive sampleClock world.history ∧ Consecutive world.history ∧
      world.shard.LeaseIffHome := by
  refine lease_exclusive_of_orderly 8 [0, 1] _ ?_
  have asked : sampleStep (.fresh 8 [0, 1]) (asks .create firstClaim) =
      some (creating firstClaim .initial .hfgff) := rfl
  have unknown : sampleStep (creating firstClaim .initial .hfgff) (answers .objectUnknown) =
      some (creating firstClaim .noFormat .hfcsh) := rfl
  have formatted : sampleStep (creating firstClaim .noFormat .hfcsh) (answers .success) =
      some (creating firstClaim .noMeta .hfset) := rfl
  have created : sampleStep (creating firstClaim .noMeta .hfset) (answers .success) =
      some (leased firstClaim 10 0 1 [granted]) := rfl
  have sent : sampleStep (leased firstClaim 10 0 1 [granted]) (asks .put renewal) =
      some (renewing [granted]) := rfl
  have extended : sampleStep (renewing [granted]) (answers .success) =
      some (leased renewal 20 1 3 [renewed, granted]) := rfl
  have passed : sampleStep (leased renewal 20 1 3 [renewed, granted]) (.leaseTimeout 0) =
      some (leased renewal 20 1 4 [renewed, granted]) := rfl
  have plain (seqno : UInt32) : (claimHome .metaSuperNode 1 10 seqno).Undistributed :=
    ⟨.shardid, .super, rfl, nofun⟩
  refine .cons ⟨.inr ⟨.inl rfl, rfl⟩, fun _ carried => Option.some.inj carried ▸ plain 0⟩ asked ?_
  refine .cons ⟨Option.some_ne_none _, orderly_answers nofun⟩ unknown ?_
  refine .cons ⟨Option.some_ne_none _, orderly_answers nofun⟩ formatted ?_
  refine .cons ⟨Option.some_ne_none _, orderly_answers ?_⟩ created ?_
  · rintro _ _ op rest request ⟨⟩ ⟨⟩
    refine ⟨⟨by decide, nofun⟩, fun _ _ => by decide, ?_, ?_⟩ <;>
    · intro _ never
      cases never
  refine .cons ⟨.inr ⟨.inr rfl, rfl⟩, fun _ carried => Option.some.inj carried ▸ plain 1⟩ sent ?_
  refine .cons ⟨Option.some_ne_none _, orderly_answers ?_⟩ extended ?_
  · rintro _ _ op rest request ⟨⟩ ⟨⟩
    refine ⟨⟨by decide, nofun⟩, fun _ _ => by decide, ?_, ?_⟩
    · rintro record ⟨⟩
      decide
    · rintro record ⟨⟩ _ _
      exact ⟨rfl, fun _ => by decide⟩
  refine .cons ⟨⟨by decide, nofun⟩, trivial⟩ passed ?_
  refine .cons ⟨⟨by decide, fun _ => by decide⟩, trivial⟩ rfl ?_
  refine ⟨⟨Option.some_ne_none _, orderly_answers ?_⟩, fun _ _ => trivial⟩
  rintro _ _ op rest request ⟨⟩ ⟨⟩
  refine ⟨⟨by decide, nofun⟩, nofun, ?_, ?_⟩
  · rintro record ⟨⟩
    decide
  · intro record _ never
    cases never

/-- The home 1 holds a timed lease, and a put of a distributed type by node 2 is accepted all the same,
with a sequence number of its choice. And after the creation of a shard with a home but without a lease
the record names a home and no lease exists, so that the next put fails the assertion. -/
theorem lease_taken_over_by_distributed_put :
    (∃ world, run (storageStep sampleConfig fun _ => 0) (.fresh 8 [0, 1, 2])
        (creation (claimHome .metaSuperNode 1 10 0) ++ [asks .put (claimHome .v12Way 2 10 7)]) =
          some world ∧
      ¬ Exclusive (fun _ => 0) world.history ∧ ¬ Consecutive world.history) ∧
    ∃ world, run (storageStep sampleConfig fun _ => 0) (.fresh 8 [0, 1, 2])
        (creation (claimHome .metaSuperNode 1 0 0)) = some world ∧ ¬ world.shard.LeaseIffHome ∧
      storageStep sampleConfig (fun _ => 0) world (asks .put (claimHome .metaSuperNode 1 10 1)) = none := by
  refine ⟨⟨_, rfl, ?_, ?_⟩, _, rfl, ?_, rfl⟩
  · rintro ⟨-, exclusive⟩
    rcases exclusive ⟨1, .timed 10⟩ (by decide) (by decide) with
      ⟨ends, timed, reading, made, reached⟩ | released
    · cases timed
      cases reached
    · revert released
      decide
  · rintro ⟨-, consecutive⟩
    exact absurd (consecutive 0 rfl) (by decide)
  · intro iff
    have leased := iff.mpr ⟨_, rfl, by decide⟩
    revert leased
    decide

end Zetascale.MetaStorage
