import Zetascale.Replication.LeaseBook

/-!
# The work of a shard

One turn of the loop of `rms_shard_do_work` ends an operation without accepting an
update, or sends a flash request whose answer the shard is ready for. By induction
over the queue the loop leaves a shard that is `Working`, whatever the queue holds;
the handlers that queue an operation or take the lease away do the same.
-/

namespace Zetascale.MetaStorage

open Leases List Option

variable {rms : RmsConfig} {clock : ℕ → ℕ} {shard before after : RmsShard}
  {record request : CrShardMeta} {op : RmsOp} {grants : List (Grant ℤ)} {last : Option ℕ}

/-- A get, or a create or put whose meta-data is not of a distributed type. -/
def RmsOp.Plain (op : RmsOp) : Prop :=
  op.opType = .get ∨ ((op.opType = .create ∨ op.opType = .put) ∧
    ∃ request, op.shardMeta = some request ∧ request.Undistributed)

/-- The shard is ready for the answer to the flash request it made for the operation. -/
def Awaits (clock : ℕ → ℕ) (shard : RmsShard) (grants : List (Grant ℤ)) (op : RmsOp) :
    FlashRequest → Prop
  | .hfgff => shard.state = .initial ∧ shard.shardMeta = none
  | .hfcsh => shard.state = .noFormat ∧ shard.shardMeta = none ∧ op.opType = .create
  | .hfset => op.opType.isPut = true ∧
      ∃ request, op.shardMeta = some request ∧ Compatible clock shard grants request

/-- What holds of a shard between two handlers. -/
structure Working (clock : ℕ → ℕ) (shard : RmsShard) (grants : List (Grant ℤ)) (last : Option ℕ) :
    Prop where
  held : Held clock shard grants last
  queue : ∀ op ∈ shard.blockedOps, op.Plain
  flight : ∀ request, shard.opMsgtype = some request →
    ∃ op rest, shard.blockedOps = op :: rest ∧ Awaits clock shard grants op request

/-- A handler finishes, accepts nothing and leaves a working shard. -/
def Works (clock : ℕ → ℕ) (grants : List (Grant ℤ)) (last : Option ℕ)
    (outcome : Option (RmsShard × List RmsReply)) : Prop :=
  ∃ after replies, outcome = some (after, replies) ∧ Working clock after grants last ∧
    replies.filterMap (RmsReply.accepted clock) = []

variable {flash : FlashRequest}

theorem Awaits.eases (awaits : Awaits clock before grants op flash)
    (eases : Eases before after) : Awaits clock after grants op flash := by
  cases flash with
  | hfgff => exact ⟨eases.state.trans awaits.1, eases.bare.mpr awaits.2⟩
  | hfcsh => exact ⟨eases.state.trans awaits.1, eases.bare.mpr awaits.2.1, awaits.2.2⟩
  | hfset =>
    obtain ⟨isPut, request, carried, compatible⟩ := awaits
    exact ⟨isPut, request, carried, compatible.eases eases⟩

theorem Awaits.subset {fewer : List (Grant ℤ)}
    (awaits : Awaits clock shard grants op flash) (among : ∀ grant ∈ fewer, grant ∈ grants) :
    Awaits clock shard fewer op flash := by
  cases flash with
  | hfgff | hfcsh => exact awaits
  | hfset =>
    obtain ⟨isPut, request, carried, compatible⟩ := awaits
    exact ⟨isPut, request, carried, compatible.subset among⟩

theorem Working.eases (working : Working clock before grants last) (eases : Eases before after)
    (held : Held clock after grants last) : Working clock after grants last where
  held := held
  queue := by rw [eases.queue]; exact working.queue
  flight := by
    intro request waiting
    rw [eases.flight] at waiting
    obtain ⟨op, rest, head, awaits⟩ := working.flight request waiting
    exact ⟨op, rest, eases.queue.trans head, awaits.eases eases⟩

/-! ### Admission -/

/-- An update that the rules let pass is compatible with the leases in force. -/
theorem compatible_of_rules (kept : Kept clock shard grants last record)
    (giveBack : ¬(request.currentHomeNode = CR_HOME_NODE_NONE ∧ shard.leaseExists = true ∧
      request.writeNode ≠ record.currentHomeNode))
    (takeOver : ¬(shard.leaseExists = true ∧ request.currentHomeNode ≠ record.currentHomeNode ∧
      (record.leaseLiveness = false ∨ request.currentHomeNode ≠ CR_HOME_NODE_NONE)))
    (next : request.shardMetaSeqno = record.shardMetaSeqno + 1) :
    Compatible clock shard grants request where
  exclusive := by
    intro grant stands now other
    rcases kept.covered grant stands with expired | ⟨leased, home, lasts⟩
    · exact .inl expired
    · have different : request.currentHomeNode ≠ record.currentHomeNode := by
        intro same
        have named := kept.lease.mp leased
        refine other ?_
        rw [← home, ← same]
        rw [← same] at named
        simp [CrShardMeta.update, named]
      have none : request.currentHomeNode = CR_HOME_NODE_NONE := by
        by_contra named
        exact takeOver ⟨leased, different, .inr named⟩
      have living : record.leaseLiveness = true := by
        by_contra timed
        exact takeOver ⟨leased, different, .inl (by simpa using timed)⟩
      have writer : request.writeNode = record.currentHomeNode := by
        by_contra foreign
        exact giveBack ⟨none, leased, foreign⟩
      have endless : grant.term = .liveness := by
        cases term : grant.term with
        | timed ends =>
          rw [term, living] at lasts
          cases lasts.1
        | liveness => rfl
      right
      simp [Grant.releasedBy, CrShardMeta.update, endless, none, writer, home]
  bare := by
    intro unrecorded
    cases kept.recorded.symm.trans unrecorded
  next := by
    intro stored recorded
    cases kept.recorded.symm.trans recorded
    refine ⟨?_, next⟩
    by_contra conflict
    simp only [not_or, not_and] at conflict
    obtain ⟨leased, different, given⟩ := conflict
    refine takeOver ⟨by simpa using leased, fun same => different same.symm, ?_⟩
    by_cases living : record.leaseLiveness = true
    · exact .inr (given living)
    · exact .inl (by simpa using living)

/-- An update that is not of a distributed type is refused, or it is compatible with the leases
in force. -/
theorem allowedOver_spec (kept : Kept clock shard grants last record)
    (asked : op.opType = .create ∨ op.opType = .put) :
    ∃ status, allowedOver rms shard record op request false = some (op, status) ∧
      (status = .success → Compatible clock shard grants request) := by
  have notReput : op.opType ≠ .reput := by rcases asked with create | put <;> simp [*]
  unfold allowedOver
  by_cases creates : op.opType = .create ∧ false = false
  · rw [if_pos creates]
    exact ⟨_, rfl, nofun⟩
  rw [if_neg creates]
  by_cases giveBack : request.currentHomeNode = CR_HOME_NODE_NONE ∧ shard.leaseExists = true ∧
      request.writeNode ≠ record.currentHomeNode
  · rw [if_pos giveBack]
    exact ⟨_, rfl, nofun⟩
  rw [if_neg giveBack]
  simp only [Bool.false_eq_true, false_and, if_false, notReput]
  split
  · exact ⟨_, rfl, nofun⟩
  next takeOver =>
    split
    · exact ⟨_, rfl, nofun⟩
    next next =>
      split
      · exact ⟨_, rfl, nofun⟩
      · exact ⟨_, rfl, fun _ => compatible_of_rules kept giveBack takeOver (not_not.mp next)⟩

/-- With no record every update is compatible, since no lease is in force. -/
theorem Bare.compatible (bare : Bare clock shard grants last) (state : shard.state = .noMeta) :
    Compatible clock shard grants request where
  exclusive := fun grant stands _ _ => .inl (bare.expired grant stands)
  bare := fun _ => state
  next := by
    intro record stored
    cases bare.unrecorded.symm.trans stored

/-- `rms_op_allowed` answers, leaves the operation alone and lets only compatible updates pass. -/
theorem opAllowed_spec (held : Held clock shard grants last)
    (ready : shard.state = .noMeta ∨ shard.state = .normal)
    (asked : op.opType = .create ∨ op.opType = .put) (plain : request.Undistributed) :
    ∃ status, rmsOpAllowed rms shard op request = some (op, status) ∧
      (status = .success → Compatible clock shard grants request) := by
  obtain ⟨index, storage, flags, undistributed⟩ := plain
  have notReput : op.opType ≠ .reput := by rcases asked with create | put <;> simp [*]
  unfold rmsOpAllowed
  simp only [flags, notReput, false_and, if_false, held.leaseAsserted, Bool.true_eq_false]
  rcases held with bare | ⟨record, kept⟩
  · have state : shard.state = .noMeta := by
      rcases ready with noMeta | normal
      · exact noMeta
      · rcases bare.state with state | state | state <;> rw [normal] at state <;> cases state
    rw [state, bare.unrecorded]
    exact ⟨.success, rfl, fun _ => bare.compatible state⟩
  · rw [kept.normal, kept.recorded]
    simp only [undistributed, decide_false]
    exact allowedOver_spec kept asked

/-! ### One turn of the loop -/

/-- A turn ends the operation without accepting an update, or it sends a request to flash. -/
inductive Turn (clock : ℕ → ℕ) (shard : RmsShard) (grants : List (Grant ℤ)) (last : Option ℕ)
    (op : RmsOp) : Option Examined → Prop
  | ended {after : RmsShard} {reply : RmsReply} (held : Held clock after grants last)
      (flight : after.opMsgtype = shard.opMsgtype) (nothing : reply.accepted clock = none) :
      Turn clock shard grants last op (some (.ended after reply))
  | sent {after : RmsShard} {flash : FlashRequest} (held : Held clock after grants last)
      (awaits : Awaits clock after grants op flash) :
      Turn clock shard grants last op (some (.sent after flash op))

/-- A refusal is no event. -/
theorem accepted_of_refusal {status : RmsStatus} (refused : status ≠ .success) :
    (rmsOpEnd shard op status).accepted clock = none := by
  simp [RmsReply.accepted, rmsOpEnd, refused]

theorem accepted_of_get {status : RmsStatus} (get : op.opType = .get) :
    (rmsOpEnd shard op status).accepted clock = none := by
  simp [RmsReply.accepted, rmsOpEnd, get, RmsOpType.isPut]

/-- An update is examined. -/
theorem examinePut_turn (held : Held clock shard grants last)
    (ready : shard.state = .noMeta ∨ shard.state = .normal)
    (asked : op.opType = .create ∨ op.opType = .put) (carried : op.shardMeta = some request)
    (plain : request.Undistributed) :
    Turn clock shard grants last op (examinePut rms clock shard op) := by
  have eases : Eases shard (rmsShardLeaseUpdate clock shard) := leaseUpdate_eases shard
  obtain ⟨status, allowed, passes⟩ :
      ∃ status, rmsOpAllowed rms (rmsShardLeaseUpdate clock shard) op request = some (op, status) ∧
        (status = .success → Compatible clock (rmsShardLeaseUpdate clock shard) grants request) :=
    opAllowed_spec held.leaseUpdate (by rw [eases.state]; exact ready) asked plain
  obtain ⟨index, storage, flags, undistributed⟩ := plain
  have isPut : op.opType.isPut = true := by rcases asked with create | put <;> simp [*, RmsOpType.isPut]
  unfold examinePut
  simp only [carried, allowed]
  by_cases success : status = .success
  · subst success
    simp only [carried, bind_some, flags]
    split
    · next distributed =>
        cases distributed
        cases undistributed rfl
    · exact .sent held.leaseUpdate ⟨isPut, request, carried, passes rfl⟩
  · split
    · contradiction
    · next op' allowed' =>
        cases allowed'
        cases success rfl
    · next op' refusal _ same =>
        cases same
        exact .ended held.leaseUpdate eases.flight (accepted_of_refusal success)

/-- No operation in the queue moves the shard out of its initial state unasked. -/
theorem startState_eq (plain : op.Plain) : startState shard op = some shard.state := by
  unfold startState
  rcases plain with get | ⟨asked, request, carried, index, storage, flags, undistributed⟩
  · rw [get]
    cases shard.state <;> rfl
  · have isPut : op.opType.isPut = true := by
      rcases asked with create | put <;> simp [*, RmsOpType.isPut]
    rw [isPut, carried]
    cases shard.state <;> simp [flags, undistributed]

/-- Any operation is examined. -/
theorem examineIn_turn (held : Held clock shard grants last) (plain : op.Plain) :
    Turn clock shard grants last op (examineIn rms clock shard op) := by
  have refused {status : RmsStatus} (refused : status ≠ .success) :
      Turn clock shard grants last op (some (.ended shard (rmsOpEnd shard op status))) :=
    .ended held rfl (accepted_of_refusal refused)
  unfold examineIn
  rcases held with bare | ⟨record, kept⟩
  · -- without a record only a create gets past the first questions
    have creates (creates : op.opType = .create ∨ op.opType = .reput) :
        op.opType = .create ∧ ∃ request, op.shardMeta = some request ∧ request.Undistributed := by
      rcases plain with get | ⟨asked, carries⟩
      · rcases creates with other | other <;> cases get.symm.trans other
      · rcases creates with create | reput
        · exact ⟨create, carries⟩
        · rcases asked with other | other <;> cases reput.symm.trans other
    rcases bare.state with state | state | state
    · simp only [state]
      exact .sent (.inl bare) ⟨state, bare.unrecorded⟩
    · simp only [state]
      split
      · next creating =>
          exact .sent (.inl bare) ⟨state, bare.unrecorded, (creates creating).1⟩
      · exact refused (by simp)
    · simp only [state]
      split
      · next creating =>
          obtain ⟨create, request, carried, undistributed⟩ := creates creating
          exact examinePut_turn (.inl bare) (.inl state) (.inl create) carried undistributed
      · exact refused (by simp)
  · simp only [kept.normal]
    rcases plain with get | ⟨asked, request, carried, undistributed⟩
    · simp only [get]
      exact .ended (.inr kept.leaseUpdate) (leaseUpdate_eases shard).flight (accepted_of_get get)
    · have turn : Turn clock shard grants last op (examinePut rms clock shard op) :=
        examinePut_turn (.inr ⟨record, kept⟩) (.inr kept.normal) asked carried undistributed
      rcases asked with is | is <;> simp only [is] <;> exact turn

theorem examine_turn (held : Held clock shard grants last) (plain : op.Plain) :
    Turn clock shard grants last op (examine rms clock shard op) := by
  unfold examine
  rw [startState_eq plain]
  exact examineIn_turn held plain

/-! ### The loop -/

/-- Replacing queue and outstanding request does not touch what the leases depend on. -/
theorem Held.requeue (held : Held clock shard grants last) (waiting : Option FlashRequest)
    (queue : List RmsOp) :
    Held clock { shard with opMsgtype := waiting, blockedOps := queue } grants last := by
  rcases held with bare | ⟨record, kept⟩
  · exact .inl { bare with }
  · exact .inr ⟨record, { kept with }⟩

theorem Awaits.requeue (awaits : Awaits clock shard grants op flash)
    (waiting : Option FlashRequest) (queue : List RmsOp) :
    Awaits clock { shard with opMsgtype := waiting, blockedOps := queue } grants op flash := by
  cases flash with
  | hfgff | hfcsh => exact awaits
  | hfset =>
    obtain ⟨isPut, request, carried, compatible⟩ := awaits
    exact ⟨isPut, request, carried, { compatible with }⟩

/-- By induction over the queue: the loop ends its operations up to the first that must wait for
flash, and stops there. -/
theorem workThrough_works (held : Held clock shard grants last) (idle : shard.opMsgtype = none)
    {queue : List RmsOp} (plain : ∀ op ∈ queue, op.Plain) :
    Works clock grants last (workThrough rms clock shard queue) := by
  induction queue generalizing shard with
  | nil =>
    refine ⟨_, [], rfl, ⟨held.requeue shard.opMsgtype [], forall_mem_nil _, ?_⟩, rfl⟩
    intro flash waiting
    cases idle.symm.trans waiting
  | cons op rest ih =>
    rw [forall_mem_cons] at plain
    have turn : Turn clock shard grants last op (examine rms clock shard op) :=
      examine_turn held plain.1
    unfold workThrough
    generalize examine rms clock shard op = outcome at turn
    cases turn with
    | ended heldAfter flight nothing =>
      rename_i after reply
      obtain ⟨final, replies, worked, working, accepted⟩ :=
        ih heldAfter (flight.trans idle) plain.2
      refine ⟨final, reply :: replies, ?_, working, ?_⟩
      · simp [worked]
      · rw [filterMap_cons, nothing]
        exact accepted
    | sent heldAfter awaits =>
      rename_i after flash
      refine ⟨_, [], rfl, ⟨heldAfter.requeue (some flash) (op :: rest), ?_, ?_⟩, rfl⟩
      · exact forall_mem_cons.mpr plain
      · rintro flash' ⟨⟩
        exact ⟨op, rest, rfl, awaits.requeue (some flash) (op :: rest)⟩

/-- The queue is worked off. -/
theorem doWork_works (working : Working clock shard grants last) :
    Works clock grants last (rmsShardDoWork rms clock shard) := by
  unfold rmsShardDoWork
  split
  · next idle => exact workThrough_works working.held idle working.queue
  · exact ⟨shard, [], rfl, working, rfl⟩

/-- A handler that answers first and works then. -/
theorem Works.answer {outcome : Option (RmsShard × List RmsReply)} {reply : RmsReply}
    (works : Works clock grants last outcome) (nothing : reply.accepted clock = none) :
    Works clock grants last (outcome.map fun done => (done.1, reply :: done.2)) := by
  obtain ⟨after, replies, worked, working, accepted⟩ := works
  refine ⟨after, reply :: replies, by rw [worked]; rfl, working, ?_⟩
  rw [filterMap_cons, nothing]
  exact accepted

/-- An operation joins the queue. -/
theorem queueLocalOp_works (working : Working clock shard grants last) (plain : op.Plain) :
    Works clock grants last (rmsQueueLocalOp rms clock shard op) := by
  unfold rmsQueueLocalOp
  split
  · next get =>
      exact (doWork_works (working.eases (leaseUpdate_eases shard) working.held.leaseUpdate)).answer
        (accepted_of_get get.1)
  · refine doWork_works ⟨working.held.requeue _ _, ?_, ?_⟩
    · exact forall_mem_append.mpr ⟨working.queue, forall_mem_singleton.mpr plain⟩
    · intro flash waiting
      obtain ⟨head, rest, queue, awaits⟩ := working.flight flash waiting
      refine ⟨head, rest ++ [op], ?_, awaits.requeue shard.opMsgtype _⟩
      simp [queue]

/-! ### Taking the lease away -/

/-- A client asks for an update. -/
theorem putShardMeta_works (working : Working clock shard grants last)
    (plain : request.Undistributed) :
    Works clock grants last (rmsPutShardMeta rms clock shard request) := by
  have ⟨index, storage, flags, undistributed⟩ := plain
  have notVip : index ≠ .vipGroupId := by
    intro vip
    cases kind : request.type <;> rw [kind] at flags <;> simp_all [rmsReplicationTypeFlags]
  unfold rmsPutShardMeta
  simp only [flags, notVip, undistributed, false_and, if_false]
  split
  · exact ⟨shard, [], rfl, working, rfl⟩
  · exact queueLocalOp_works working (.inr ⟨.inr rfl, request, rfl, plain⟩)

/-- The shard as `rms_shard_set_lease_none` leaves it before it queues its update. -/
def unleased (shard : RmsShard) (record : CrShardMeta) : RmsShard :=
  { rmsShardLeaseCancelTimeout shard with
    leaseExists := false
    shardMeta := some { record with
      currentHomeNode := CR_HOME_NODE_NONE
      leaseUsecs := 0 } }

/-- The lease may be taken away once every standing lease has run out. -/
theorem setLeaseNone_works (working : Working clock before grants last)
    (kept : Kept clock before grants last record) (eases : Eases before after)
    {fewer : List (Grant ℤ)} (among : ∀ grant ∈ fewer, grant ∈ grants)
    (expired : ∀ grant ∈ fewer, grant.Expired clock after.reads) :
    Works clock fewer last (rmsShardSetLeaseNone rms clock after) := by
  have normal : after.state = .normal := eases.state.trans kept.normal
  obtain ⟨record', recorded⟩ : ∃ record', after.shardMeta = some record' := by
    refine ne_none_iff_exists'.mp fun none => ?_
    have unrecorded := eases.bare.mp none
    cases kept.recorded.symm.trans unrecorded
  obtain ⟨stored, storedBefore, seqno, type, -⟩ := eases.record record' recorded
  cases kept.recorded.symm.trans storedBefore
  have undistributed : record'.Undistributed := by
    unfold CrShardMeta.Undistributed
    rw [type]
    exact kept.undistributed
  have lost : Eases before (unleased after record') := by
    refine ⟨eases.state, eases.reads, eases.queue, eases.flight, ?_, ?_⟩
    · simp [unleased, kept.recorded]
    · rintro stored ⟨⟩
      exact ⟨record, kept.recorded, seqno, type, nofun⟩
  have still : Kept clock (unleased after record') fewer last
      { record' with currentHomeNode := CR_HOME_NODE_NONE, leaseUsecs := 0 } := by
    refine ⟨rfl, normal, undistributed, ?_, by simp [unleased], nofun, ?_⟩
    · rw [kept.seqno, ← seqno]
    · exact fun grant stands => .inl (expired grant stands)
  have workingAfter : Working clock (unleased after record') fewer last := by
    refine ⟨.inr ⟨_, still⟩, ?_, ?_⟩
    · rw [lost.queue]
      exact working.queue
    · intro flash waiting
      rw [lost.flight] at waiting
      obtain ⟨op, rest, head, awaits⟩ := working.flight flash waiting
      exact ⟨op, rest, lost.queue.trans head, (awaits.eases lost).subset among⟩
  unfold rmsShardSetLeaseNone
  rw [recorded]
  simp only [normal, reduceCtorEq, if_false]
  exact putShardMeta_works workingAfter undistributed

end Zetascale.MetaStorage
