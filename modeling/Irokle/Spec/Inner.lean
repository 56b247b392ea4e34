import Irokle.Spec.Env

/-!
# The records of a memory store

`MemoryInner` (`src/storage/memory/mod.rs`) holds three groups of maps that different operations
write: the admitted history (`Records`), the buffered ops with their indexes (`PendingIndex`) and
the evidence about peers (`Evidence`). Memory charges are not kept: a refused reservation is a
`Fault` of the write that asks for it.
-/

namespace Irokle

open Std

/-- The admitted history of every topic and the indexes over it. -/
structure Records where
  ops : BTreeMap OpId Op := ∅
  metas : BTreeMap OpId OpMeta := ∅
  topicOps : BTreeMap TopicId (BTreeSet OpId) := ∅
  heads : BTreeMap TopicId (BTreeSet OpId) := ∅
  children : BTreeMap OpId (BTreeSet OpId) := ∅
  actorBySeq : BTreeMap (TopicId × ActorId × ℕ) OpId := ∅
  actorTip : BTreeMap (TopicId × ActorId) (ℕ × OpId) := ∅
  actorClock : BTreeMap TopicId ActorClock := ∅
  topicFingerprint : BTreeMap TopicId Digest := ∅
  maxGeneration : BTreeMap TopicId ℕ := ∅
  topics : BTreeMap TopicId TopicState := ∅
deriving DecidableEq

/-- Rejected ids of one topic, oldest first. -/
structure RejectedIds where
  order : List OpId := []
  ids : BTreeSet OpId := ∅
deriving DecidableEq

/-- Buffered ops and the indexes over them. -/
structure PendingIndex where
  pendingOps : BTreeMap OpId Op := ∅
  pendingRecords : BTreeMap OpId PendingRecord := ∅
  pendingByTopic : BTreeMap TopicId (BTreeSet OpId) := ∅
  pendingWaiters : BTreeMap OpId (BTreeSet OpId) := ∅
  pendingReady : BTreeSet OpId := ∅
  pendingSince : BTreeMap OpId ℕ := ∅
  pendingUsage : PendingUsage := ⟨0, 0⟩
  sourceUsage : BTreeMap PeerId PendingUsage := ∅
  topicUsage : BTreeMap TopicId PendingUsage := ∅
  rejected : BTreeMap TopicId RejectedIds := ∅
deriving DecidableEq

/-- What peers certified, what they are owed and how syncing with them went. -/
structure Evidence where
  peerAcks : BTreeMap (PeerId × TopicId) PeerAck := ∅
  obligations : BTreeMap (TopicId × PeerId) (BTreeMap ObligationKind SyncObligation) := ∅
  syncStatuses : BTreeMap (TopicId × PeerId) SyncPeerStatus := ∅
deriving DecidableEq

/-- `MemoryInner`. -/
structure MemoryInner extends Records, PendingIndex, Evidence where
  evictions : BTreeMap EvictionKey TopicEviction := ∅
  sealedTopics : BTreeSet TopicId := ∅
  topicEpochs : BTreeMap TopicId ℕ := ∅
  attemptEpoch : ℕ := 0
  admittedBytes : ℕ := 0
deriving DecidableEq

/-! ## Reads -/

namespace Records

variable (r : Records)

/-- `dep_resolvable_locked`: both records of an op are stored. -/
def depResolvable (id : OpId) : Bool := r.ops.contains id && r.metas.contains id

/-- `Storage::heads`. -/
def headsOf (t : TopicId) : BTreeSet OpId := SetMap.get r.heads t

/-- `Storage::children`. -/
def childrenOf (id : OpId) : BTreeSet OpId := SetMap.get r.children id

/-- `Storage::list_op_ids`. -/
def listOpIds (t : TopicId) : BTreeSet OpId := SetMap.get r.topicOps t

/-- `Storage::list_ops`. -/
def listOps (t : TopicId) : List Op := (r.listOpIds t).toList.filterMap fun id => r.ops[id]?

/-- `Storage::actor_clock`. -/
def clockOf (t : TopicId) : ActorClock := r.actorClock[t]?.getD ∅

/-- `Storage::max_generation`. -/
def maxGenerationOf (t : TopicId) : ℕ := r.maxGeneration[t]?.getD 0

/-- `topic_state_locked`: the stored state with the current heads. -/
def topicState (t : TopicId) : Option TopicState :=
  r.topics[t]?.map fun state => { state with heads := r.headsOf t }

/-- `Storage::topic_fingerprint`. -/
def topicFingerprintOf (E : Env) (t : TopicId) : Digest :=
  r.topicFingerprint[t]?.getD (E.topicFingerprintFor (r.headsOf t) (r.clockOf t))

end Records

/-! ## Limits -/

/-- `MAX_PENDING_OPS_TOTAL`. -/
def maxPendingOpsTotal : ℕ := 4096
/-- `MAX_PENDING_OPS_PER_SOURCE`. -/
def maxPendingOpsPerSource : ℕ := 1024
/-- `MAX_PENDING_WAITERS_PER_DEP`. -/
def maxPendingWaitersPerDep : ℕ := 1024
/-- `MAX_PENDING_BYTES_TOTAL`. -/
def maxPendingBytesTotal : ℕ := 64 * 1024 * 1024
/-- `MAX_PENDING_BYTES_PER_SOURCE`. -/
def maxPendingBytesPerSource : ℕ := 16 * 1024 * 1024
/-- `MAX_PENDING_MISSING_DEPS`. -/
def maxPendingMissingDeps : ℕ := 128
/-- `MAX_PENDING_OPS_PER_TOPIC`. -/
def maxPendingOpsPerTopic : ℕ := 2048
/-- `MAX_PENDING_BYTES_PER_TOPIC`. -/
def maxPendingBytesPerTopic : ℕ := 32 * 1024 * 1024
/-- `MAX_REJECTED_PER_TOPIC`. -/
def maxRejectedPerTopic : ℕ := 4096
/-- `MAX_PENDING_EVICTIONS`. -/
def maxPendingEvictions : ℕ := 1024
/-- `MAX_REPAIR_IDS`. -/
def maxRepairIds : ℕ := 4096

/-- `check_pending_quota`. -/
def checkPendingQuota (total source topic : PendingUsage) (charge : ℕ) : Result Unit :=
  if total.ops ≥ maxPendingOpsTotal then .error (.storage "pending op buffer is full")
  else if total.bytes + charge > maxPendingBytesTotal then .error (.storage "pending byte budget is full")
  else if source.ops ≥ maxPendingOpsPerSource then .error (.storage "pending op source quota exceeded")
  else if source.bytes + charge > maxPendingBytesPerSource then
    .error (.storage "pending byte quota exceeded for source")
  else if topic.ops ≥ maxPendingOpsPerTopic then .error (.storage "pending op topic quota exceeded")
  else if topic.bytes + charge > maxPendingBytesPerTopic then
    .error (.storage "pending byte quota exceeded for topic")
  else .ok ()

theorem checkPendingQuota_eq_ok {total source topic : PendingUsage} {charge : ℕ} :
    checkPendingQuota total source topic charge = .ok () ↔
      total.ops < maxPendingOpsTotal ∧ total.bytes + charge ≤ maxPendingBytesTotal ∧
      source.ops < maxPendingOpsPerSource ∧ source.bytes + charge ≤ maxPendingBytesPerSource ∧
      topic.ops < maxPendingOpsPerTopic ∧ topic.bytes + charge ≤ maxPendingBytesPerTopic := by
  unfold checkPendingQuota
  repeat' split
  all_goals simp_all

/-- `StagingLimits`. -/
structure StagingLimits where
  totalBytes : ℕ
  sourceBytes : ℕ
  namespaceBytes : ℕ
  namespaces : ℕ
  sourceNamespaces : ℕ
deriving DecidableEq

/-- `StagingLimits::MEMORY`. -/
def StagingLimits.memory : StagingLimits where
  totalBytes := 64 * 1024 * 1024
  sourceBytes := 32 * 1024 * 1024
  namespaceBytes := 32 * 1024 * 1024
  namespaces := 64
  sourceNamespaces := 8

/-- `StagingQuota`: what one namespace may still hold beside the others. -/
structure StagingQuota where
  namespaceBytes : ℕ
  total : ℕ
  source : ℕ
deriving DecidableEq

/-- `StagingQuota::new`. -/
def StagingQuota.new (limits : StagingLimits) (others source : ℕ) : StagingQuota where
  namespaceBytes := limits.namespaceBytes
  total := limits.totalBytes - others
  source := limits.sourceBytes - source

/-- `StagingQuota::check`. -/
def StagingQuota.check (q : StagingQuota) (held charge : ℕ) : Result Unit :=
  if charge = 0 then .ok ()
  else if held + charge ≥ u64Size then .error (.stagingCapacity "bootstrap staging byte count overflow")
  else if held + charge > q.namespaceBytes then
    .error (.stagingCapacity "bootstrap namespace byte quota exceeded")
  else if held + charge > q.total then .error (.stagingCapacity "bootstrap staging byte budget is full")
  else if held + charge > q.source then
    .error (.stagingCapacity "bootstrap staging byte quota exceeded for source")
  else .ok ()

end Irokle
