import Zetascale.Replication.MetaStorageWorld

/-!
# The shard and the leases that stand

`Kept` and `Bare` say what the shard and the standing leases of a history have to do
with each other, with and without a record: each lease has run out by some reading
of the clock, or the record names its holder and the shard will not let go of it
before its end. `Compatible` says the same of an update that flash is writing, so that
it holds over whatever happens to the lease in the meantime; the handlers that run
in between only ever take a lease away, which is `Eases`.
-/

namespace Zetascale.MetaStorage

open Leases List Option

variable {clock : ℕ → ℕ} {shard before after : RmsShard} {record request : CrShardMeta}
  {grants : List (Grant ℤ)} {last : Option ℕ} {now : ℕ}

/-- The record names the holder of the lease and lasts as long. -/
def RmsShard.Covers (shard : RmsShard) (record : CrShardMeta) (grant : Grant ℤ) : Prop :=
  shard.leaseExists = true ∧ record.currentHomeNode = grant.holder ∧
    match grant.term with
    | .timed ends => record.leaseLiveness = false ∧ ends ≤ shard.expires
    | .liveness => record.leaseLiveness = true

/-- The shard has a record, and every standing lease has run out or is the record's. -/
structure Kept (clock : ℕ → ℕ) (shard : RmsShard) (grants : List (Grant ℤ)) (last : Option ℕ)
    (record : CrShardMeta) : Prop where
  recorded : shard.shardMeta = some record
  normal : shard.state = .normal
  undistributed : record.Undistributed
  seqno : last = some record.shardMetaSeqno.toNat
  lease : shard.leaseExists = true ↔ record.currentHomeNode ≠ CR_HOME_NODE_NONE
  endless : shard.leaseExists = true → record.leaseLiveness = true →
    shard.expires = rmsTvInfinite ∧ ∀ reading, clock reading < rmsTvInfinite
  covered : ∀ grant ∈ grants, grant.Expired clock shard.reads ∨ shard.Covers record grant

/-- The shard has no record, and no lease is in force. -/
structure Bare (clock : ℕ → ℕ) (shard : RmsShard) (grants : List (Grant ℤ)) (last : Option ℕ) :
    Prop where
  unrecorded : shard.shardMeta = none
  state : shard.state = .initial ∨ shard.state = .noFormat ∨ shard.state = .noMeta
  seqno : last = none
  lease : shard.leaseExists = false
  event : shard.nextEvent = 0
  expired : ∀ grant ∈ grants, grant.Expired clock shard.reads

def Held (clock : ℕ → ℕ) (shard : RmsShard) (grants : List (Grant ℤ)) (last : Option ℕ) : Prop :=
  Bare clock shard grants last ∨ ∃ record, Kept clock shard grants last record

/-- The update names the holder of every lease in force or gives it back, and would pass the
assertions of `rms_shard_put_complete`. -/
structure Compatible (clock : ℕ → ℕ) (shard : RmsShard) (grants : List (Grant ℤ))
    (request : CrShardMeta) : Prop where
  exclusive : ∀ grant ∈ grants, ∀ now, (request.update now).holder ≠ some grant.holder →
    grant.Expired clock shard.reads ∨ grant.releasedBy (request.update now) = true
  bare : shard.shardMeta = none → shard.state = .noMeta
  next : ∀ record, shard.shardMeta = some record →
    (shard.leaseExists = false ∨ record.currentHomeNode = request.currentHomeNode ∨
      (record.leaseLiveness = true ∧ request.currentHomeNode = CR_HOME_NODE_NONE)) ∧
    request.shardMetaSeqno = record.shardMetaSeqno + 1

/-- From `before` to `after` the shard has at most lost its lease. -/
structure Eases (before after : RmsShard) : Prop where
  state : after.state = before.state
  reads : before.reads ≤ after.reads
  queue : after.blockedOps = before.blockedOps
  flight : after.opMsgtype = before.opMsgtype
  bare : after.shardMeta = none ↔ before.shardMeta = none
  record : ∀ record', after.shardMeta = some record' → ∃ record, before.shardMeta = some record ∧
    record'.shardMetaSeqno = record.shardMetaSeqno ∧ record'.type = record.type ∧
    (after.leaseExists = true → before.leaseExists = true ∧
      record'.currentHomeNode = record.currentHomeNode ∧
      record'.leaseLiveness = record.leaseLiveness)

theorem Eases.refl (shard : RmsShard) : Eases shard shard where
  state := rfl
  reads := Nat.le_refl _
  queue := rfl
  flight := rfl
  bare := Iff.rfl
  record := fun record stored => ⟨record, stored, rfl, rfl, fun leased => ⟨leased, rfl, rfl⟩⟩

theorem Eases.trans {middle : RmsShard} (first : Eases before middle) (second : Eases middle after) :
    Eases before after where
  state := second.state.trans first.state
  reads := Nat.le_trans first.reads second.reads
  queue := second.queue.trans first.queue
  flight := second.flight.trans first.flight
  bare := second.bare.trans first.bare
  record := by
    intro record'' stored''
    obtain ⟨record', stored', seqno', type', lease'⟩ := second.record record'' stored''
    obtain ⟨record, stored, seqno, type, lease⟩ := first.record record' stored'
    refine ⟨record, stored, seqno'.trans seqno, type'.trans type, fun leased'' => ?_⟩
    obtain ⟨leased', home', kind'⟩ := lease' leased''
    obtain ⟨leased, home, kind⟩ := lease leased'
    exact ⟨leased, home'.trans home, kind'.trans kind⟩

theorem Compatible.eases (compatible : Compatible clock before grants request)
    (eases : Eases before after) : Compatible clock after grants request where
  exclusive := by
    intro grant stands now other
    rcases compatible.exclusive grant stands now other with expired | released
    · exact .inl (expired.mono eases.reads)
    · exact .inr released
  bare := by
    intro unrecorded
    rw [eases.state]
    exact compatible.bare (eases.bare.mp unrecorded)
  next := by
    intro record' stored'
    obtain ⟨record, stored, seqno, _, lease⟩ := eases.record record' stored'
    obtain ⟨home, next⟩ := compatible.next record stored
    refine ⟨?_, by rw [seqno]; exact next⟩
    cases leased : after.leaseExists with
    | false => exact .inl rfl
    | true =>
      obtain ⟨leasedBefore, sameHome, sameKind⟩ := lease leased
      rw [sameHome, sameKind]
      rcases home with gone | rest
      · cases leasedBefore.symm.trans gone
      · exact .inr rest

theorem Compatible.subset {fewer : List (Grant ℤ)}
    (compatible : Compatible clock shard grants request) (among : ∀ grant ∈ fewer, grant ∈ grants) :
    Compatible clock shard fewer request :=
  { compatible with exclusive := fun grant stands => compatible.exclusive grant (among grant stands) }

/-- The shard has a lease if its record has a home. -/
theorem Held.leaseIffHome (held : Held clock shard grants last) : shard.LeaseIffHome := by
  unfold RmsShard.LeaseIffHome
  rcases held with bare | ⟨record, kept⟩
  · rw [bare.lease, bare.unrecorded]
    simp
  · rw [kept.lease, kept.recorded]
    simp

theorem Held.leaseAsserted (held : Held clock shard grants last) : shard.leaseAsserted = true := by
  unfold RmsShard.leaseAsserted
  rcases held with bare | ⟨record, kept⟩
  · rw [bare.lease, bare.unrecorded]
    rfl
  · rw [kept.recorded, beq_iff_eq, any_some, Bool.eq_iff_iff, bne_iff_ne]
    exact kept.lease

/-! ### Looking at the clock -/

/-- An update of the lease only lets it end. -/
theorem leaseUpdate_eases (shard : RmsShard) : Eases shard (rmsShardLeaseUpdate clock shard) := by
  unfold rmsShardLeaseUpdate
  cases stored : shard.shardMeta with
  | none => exact Eases.refl shard
  | some record =>
    cases leased : shard.leaseExists with
    | false => exact Eases.refl shard
    | true =>
      by_cases elapsed : shard.expires ≤ clock shard.reads
      · simp only [if_true, if_pos elapsed]
        refine ⟨rfl, Nat.le_succ _, rfl, rfl, by simp [stored], ?_⟩
        rintro record' ⟨⟩
        exact ⟨record, stored, rfl, rfl, nofun⟩
      · simp only [if_true, if_neg elapsed]
        refine ⟨rfl, Nat.le_succ _, rfl, rfl, by simp [stored], ?_⟩
        rintro record' ⟨⟩
        exact ⟨record, stored, rfl, rfl, fun _ => ⟨leased, rfl, rfl⟩⟩

/-- A lease that the record covers has run out when a reading reaches the end the shard has
for it, because no reading reaches the end of a liveness lease. -/
theorem Kept.expired_of_reading (kept : Kept clock shard grants last record)
    (elapsed : shard.expires ≤ clock shard.reads) :
    ∀ grant ∈ grants, grant.Expired clock (shard.reads + 1) := by
  intro grant stands
  rcases kept.covered grant stands with expired | ⟨leased, _, lasts⟩
  · exact expired.mono (Nat.le_succ _)
  · cases term : grant.term with
    | timed ends =>
      rw [term] at lasts
      exact ⟨ends, term, shard.reads, Nat.lt_succ_self _, Nat.le_trans lasts.2 elapsed⟩
    | liveness =>
      rw [term] at lasts
      obtain ⟨never, bounded⟩ := kept.endless leased lasts
      have reading := bounded shard.reads
      omega

theorem Kept.leaseUpdate (kept : Kept clock shard grants last record) :
    ∃ record', Kept clock (rmsShardLeaseUpdate clock shard) grants last record' := by
  unfold rmsShardLeaseUpdate
  rw [kept.recorded]
  cases leased : shard.leaseExists with
  | false => exact ⟨record, kept⟩
  | true =>
    by_cases elapsed : shard.expires ≤ clock shard.reads
    · simp only [if_true, if_pos elapsed]
      refine ⟨_, ⟨rfl, kept.normal, kept.undistributed, kept.seqno, by simp, nofun, ?_⟩⟩
      intro grant stands
      exact .inl (kept.expired_of_reading elapsed grant stands)
    · simp only [if_true, if_neg elapsed]
      refine ⟨_, ⟨rfl, kept.normal, kept.undistributed, kept.seqno, ?_, ?_, ?_⟩⟩
      · exact iff_of_true rfl (kept.lease.mp leased)
      · exact fun _ => kept.endless leased
      · intro grant stands
        rcases kept.covered grant stands with expired | covers
        · exact .inl (expired.mono (Nat.le_succ _))
        · exact .inr ⟨rfl, covers.2⟩

/-- A lease that ends has run out. -/
theorem Held.leaseUpdate (held : Held clock shard grants last) :
    Held clock (rmsShardLeaseUpdate clock shard) grants last := by
  rcases held with bare | ⟨record, kept⟩
  · have same : rmsShardLeaseUpdate clock shard = shard := by
      unfold rmsShardLeaseUpdate
      rw [bare.unrecorded]
    rw [same]
    exact .inl bare
  · exact .inr kept.leaseUpdate

/-! ### A new record -/

/-- Without overflow the shard's end of a timed lease is the one the update asks for. -/
theorem leaseEnd_eq (fits : now % MILLION + request.leaseUsecs.toNat < 2 ^ 64) :
    leaseEnd now request.leaseUsecs = now + request.leaseUsecs.toNat := by
  unfold leaseEnd
  have split := Nat.div_add_mod now MILLION
  rw [Nat.mul_comm] at split
  omega

/-- The update names the holder of the lease and, with this end, lasts as long. -/
def CrShardMeta.Renews (request : CrShardMeta) (expires : ℕ) (grant : Grant ℤ) : Prop :=
  request.currentHomeNode = grant.holder ∧
    match grant.term with
    | .timed ends => request.leaseLiveness = false ∧ ends ≤ expires
    | .liveness => request.leaseLiveness = true

open CrShardMeta

theorem CrShardMeta.Renews.mono {expires expires' : ℕ} {grant : Grant ℤ}
    (renews : record.Renews expires grant) (home : request.currentHomeNode = record.currentHomeNode)
    (kind : request.leaseLiveness = record.leaseLiveness)
    (longer : record.leaseLiveness = false → expires ≤ expires') : request.Renews expires' grant := by
  obtain ⟨holder, lasts⟩ := renews
  refine ⟨home.trans holder, ?_⟩
  cases term : grant.term with
  | timed ends =>
    rw [term] at lasts
    exact ⟨kind.trans lasts.1, Nat.le_trans lasts.2 (longer lasts.1)⟩
  | liveness =>
    rw [term] at lasts
    exact kind.trans lasts

/-- A new lease lasts as long as it is granted for. -/
theorem grant_covers (proper : request.Proper clock) (fits : request.Fits (clock shard.reads))
    (leased : request.leaseUsecs ≠ 0) {grant : Grant ℤ}
    (granted : (request.update (clock shard.reads)).grant = some grant) :
    request.Renews (leaseEnd (clock shard.reads) request.leaseUsecs) grant := by
  have named : request.currentHomeNode ≠ CR_HOME_NODE_NONE :=
    fun none => leased (proper.leased.mp none)
  cases kind : request.leaseLiveness with
  | true =>
    simp only [Update.grant, update, term, if_neg named, if_neg leased, kind,
      if_true, bind_some, map_some, some.injEq] at granted
    rw [← granted]
    exact ⟨rfl, kind⟩
  | false =>
    simp only [Update.grant, update, term, if_neg named, if_neg leased, kind,
      Bool.false_eq_true, if_false, bind_some, map_some, some.injEq] at granted
    rw [← granted, leaseEnd_eq (fits leased kind)]
    exact ⟨rfl, kind, Nat.le_refl _⟩

/-- An update becomes the record. Leases of other holders must have run out or be given back by it,
and the lease of its own home must not be cut short. -/
theorem schedule_kept (undistributed : request.Undistributed) (proper : request.Proper clock)
    (fits : request.Fits (clock shard.reads)) (normal : shard.state = .normal)
    (others : ∀ grant ∈ grants, (request.update (clock shard.reads)).holder ≠ some grant.holder →
      grant.Expired clock shard.reads ∨
        grant.releasedBy (request.update (clock shard.reads)) = true)
    (own : ∀ grant ∈ grants, (request.update (clock shard.reads)).holder = some grant.holder →
      grant.Expired clock shard.reads ∨
        request.Renews (clock shard.reads + request.leaseUsecs.toNat) grant) :
    ∃ record, Kept clock (rmsShardScheduleLeaseTimeout clock shard request)
      ((request.update (clock shard.reads)).grant.toList ++ grants.filter fun grant =>
        !grant.releasedBy (request.update (clock shard.reads)))
      (some request.shardMetaSeqno.toNat) record := by
  unfold rmsShardScheduleLeaseTimeout
  by_cases unleased : request.leaseUsecs = 0
  · have nobody := proper.leased.mpr unleased
    rw [if_pos unleased]
    refine ⟨request, ⟨rfl, normal, undistributed, rfl, by simp [nobody], nofun, ?_⟩⟩
    intro grant stands
    have noGrant : (request.update (clock shard.reads)).grant = none := by
      simp [Update.grant, update, nobody]
    rw [noGrant, toList_none, nil_append, mem_filter] at stands
    obtain ⟨stood, kept⟩ := stands
    rcases others grant stood (by simp [update, nobody]) with expired | released
    · exact .inl expired
    · rw [released] at kept
      cases kept
  · have named : request.currentHomeNode ≠ CR_HOME_NODE_NONE :=
      fun none => unleased (proper.leased.mp none)
    have holder : (request.update (clock shard.reads)).holder = some request.currentHomeNode := by
      simp [update, named]
    rw [if_neg unleased]
    refine ⟨_, ⟨rfl, normal, ?_, ?_, ?_, ?_, ?_⟩⟩
    · split <;> exact undistributed
    · split <;> rfl
    · split <;> simp [named]
    · intro _ endless
      have kind : request.leaseLiveness = true := by
        split at endless <;> assumption
      exact ⟨by simp [kind], proper.endless unleased kind⟩
    · intro grant stands
      have covers : request.Renews (leaseEnd (clock shard.reads) request.leaseUsecs) grant ∨
          grant.Expired clock shard.reads := by
        rcases mem_append.mp stands with granted | stood
        · rw [mem_toList] at granted
          exact .inl (grant_covers proper fits unleased granted)
        · have stood := (mem_filter.mp stood).1
          by_cases same : (request.update (clock shard.reads)).holder = some grant.holder
          · rcases own grant stood same with expired | renews
            · exact .inr expired
            · exact .inl (renews.mono rfl rfl fun kind =>
                Nat.le_of_eq (leaseEnd_eq (fits unleased kind)).symm)
          · rcases others grant stood same with expired | released
            · exact .inr expired
            · simp [Grant.releasedBy, holder] at released
      rcases covers with renews | expired
      · exact .inr ⟨rfl, renews.mono (by split <;> rfl) (by split <;> rfl) fun timed => by simp [timed]⟩
      · exact .inl (expired.mono (Nat.le_succ _))

end Zetascale.MetaStorage
