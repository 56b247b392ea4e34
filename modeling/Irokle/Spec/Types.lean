import Irokle.Spec.Ids

/-!
# Ops, topic state, records and errors

The data of `src/op.rs`, `src/topic.rs`, `src/event.rs`, `src/storage/record.rs`,
`src/storage/evidence.rs` and `src/error.rs` that admission, buffering and sync evidence read.
-/

namespace Irokle

open Std

/-! ## Payloads and signed ops -/

/-- `ReplicationPolicy`: whom to sync with, and with how many. -/
structure ReplicationPolicy where
  selectedPeers : BTreeSet PeerId
  maxSyncPeers : ℕ
deriving DecidableEq

/-- `EventEnvelope`: an application event. -/
structure EventEnvelope where
  typeId : String
  payload : List UInt8
deriving DecidableEq

/-- `TopicGenesis`: what founds a topic. -/
structure TopicGenesis where
  eventTypeId : String
  initialPeers : BTreeSet PeerId
  replicationPolicy : ReplicationPolicy
deriving DecidableEq

/-- `TopicControl`: a change of the members or of the policy. -/
inductive TopicControl
  | addPeer (peer : PeerId)
  | removePeer (peer : PeerId)
  | setReplicationPolicy (policy : ReplicationPolicy)
deriving DecidableEq

/-- `TopicPayload`. -/
inductive TopicPayload
  | genesis (genesis : TopicGenesis)
  | event (envelope : EventEnvelope)
  | control (control : TopicControl)
deriving DecidableEq

/-- `OpBody`: what the author of an op signs. -/
structure OpBody where
  topicId : TopicId
  author : PeerId
  actorId : ActorId
  actorSeq : ℕ
  actorPrev : Option OpId
  deps : BTreeSet OpId
  generation : ℕ
  payload : TopicPayload
deriving DecidableEq

/-- A 64-byte signature, compared only through verification. -/
abbrev Signature := Fin (2 ^ 512)

/-- `SignedOp`. -/
structure SignedOp where
  body : OpBody
  signature : Signature
deriving DecidableEq

/-- `Op`: a signed op under its id. -/
structure Op where
  id : OpId
  signed : SignedOp
deriving DecidableEq

/-- The body of an op. -/
abbrev Op.body (op : Op) : OpBody := op.signed.body

/-! ## Stored records -/

/-- `OpMeta`: the metadata stored beside an op. -/
structure OpMeta where
  id : OpId
  topicId : TopicId
  author : PeerId
  actorId : ActorId
  actorSeq : ℕ
  actorPrev : Option OpId
  deps : BTreeSet OpId
  generation : ℕ
  observedClock : ActorClock
  ready : Bool
  missingDeps : BTreeSet OpId
deriving DecidableEq

/-- Orders concurrent controls: by generation, then actor, sequence and id. -/
structure ControlKey where
  generation : ℕ
  actorId : ActorId
  actorSeq : ℕ
  opId : OpId
deriving DecidableEq

namespace ControlKey

/-- The fields in comparison order. -/
def toTuple (k : ControlKey) : ℕ ×ₗ ActorId ×ₗ ℕ ×ₗ OpId :=
  toLex (k.generation, toLex (k.actorId, toLex (k.actorSeq, k.opId)))

theorem toTuple_injective : Function.Injective toTuple := by
  rintro ⟨g, a, s, i⟩ ⟨g', a', s', i'⟩ h
  simp only [toTuple, EmbeddingLike.apply_eq_iff_eq, Prod.mk.injEq] at h
  obtain ⟨rfl, rfl, rfl, rfl⟩ := h
  rfl

instance : LinearOrder ControlKey := LinearOrder.lift' toTuple toTuple_injective

end ControlKey

/-- `TopicState`: what the ops of a topic materialise to. -/
structure TopicState where
  topicId : TopicId
  eventTypeId : String
  genesis : OpId
  heads : BTreeSet OpId
  members : BTreeSet PeerId
  replicationPolicy : ReplicationPolicy
  membershipControls : BTreeMap PeerId (ControlKey × Bool)
  replicationPolicyControl : Option (ControlKey × ReplicationPolicy)
deriving DecidableEq

/-! ## Evictions, evidence and obligations -/

/-- `EvictedOp`: an op that a reset discarded. -/
structure EvictedOp where
  opId : OpId
  actorId : ActorId
  author : PeerId
  actorSeq : ℕ
  payload : TopicPayload
deriving DecidableEq

/-- `TopicEviction`: what a reset to a smaller genesis discarded. -/
structure TopicEviction where
  topicId : TopicId
  losingGenesis : OpId
  winningGenesis : OpId
  evicted : List EvictedOp
deriving DecidableEq

/-- `PeerAck`: what a peer acknowledged of a topic. -/
structure PeerAck where
  peerId : PeerId
  topicId : TopicId
  genesis : Option OpId
  heads : BTreeSet OpId
  clock : ActorClock
deriving DecidableEq

/-- `ObligationTarget`: positions to reach, or ops to repair. -/
inductive ObligationTarget
  | clock (clock : ActorClock)
  | repair (ids : BTreeSet OpId)
deriving DecidableEq

/-- `SyncObligation`: what a peer is owed. -/
structure SyncObligation where
  peerId : PeerId
  topicId : TopicId
  target : ObligationTarget
deriving DecidableEq

/-- The record kind an obligation is stored under: one per peer and topic of each. -/
inductive ObligationKind
  | clock | repair
deriving DecidableEq

namespace ObligationKind

/-- The position in declaration order. -/
def toNat : ObligationKind → ℕ
  | .clock => 0
  | .repair => 1

theorem toNat_injective : Function.Injective toNat := by
  rintro (_ | _) (_ | _) h <;> first | rfl | cases h

instance : LinearOrder ObligationKind := LinearOrder.lift' toNat toNat_injective

instance transOrd_kind : TransOrd ObligationKind := inferInstance

instance transOrd_peerKind : TransOrd (PeerId × ObligationKind) := inferInstance

end ObligationKind

/-- `SyncPeerState`. -/
inductive SyncPeerState
  | idle | healthy | behind | failed
deriving DecidableEq

/-- The identity of an attempt, `(epoch, sequence)`, in the order of tuples. -/
abbrev Attempt := ℕ ×ₗ ℕ

/-- `SyncPeerStatus`: how the attempts with a peer went. -/
structure SyncPeerStatus where
  peerId : PeerId
  topicId : TopicId
  state : SyncPeerState
  pendingObligations : ℕ
  failedAttempts : ℕ
  successfulAttempts : ℕ
  lastAttemptMs : Option ℕ
  lastSuccessMs : Option ℕ
  lastError : Option String
  latestAttempt : Option Attempt
  recentAttempts : List Attempt
deriving DecidableEq

/-- `AdmissionEffects`: what is written along with a batch. -/
structure AdmissionEffects where
  syncObligations : List SyncObligation
deriving DecidableEq

/-- `AdmittedBatch`: entries to store, with the state they were built on. -/
structure AdmittedBatch where
  topicId : TopicId
  expectedHeads : BTreeSet OpId
  expectedTopicState : Option TopicState
  entries : List (Op × OpMeta)
  heads : BTreeSet OpId
  topicState : Option TopicState
  effects : AdmissionEffects
deriving DecidableEq

/-- `PendingUsage`: what a scope has buffered. -/
structure PendingUsage where
  ops : ℕ
  bytes : ℕ
deriving DecidableEq

/-- `PendingRecord`: whom a buffered op came from, and what it misses. -/
structure PendingRecord where
  source : PeerId
  topicId : TopicId
  missing : BTreeSet OpId
  charge : ℕ
deriving DecidableEq

/-- Outcome of an admission pass. -/
structure Admitted where
  accepted : BTreeSet OpId
  evictions : List TopicEviction
  readyRemaining : Bool
deriving DecidableEq

/-! ## Errors -/

/-- `MemoryDomain`: the budget that ran out. -/
inductive MemoryDomain
  | operations | metadata | sharedNodes | workspace | activation | recovery | control
deriving DecidableEq

/-- The errors of `src/error.rs` that the modelled functions raise. -/
inductive Error
  | encode (message : String)
  | invalidSignature
  | admissionConflict
  | memoryPressure (domain : MemoryDomain) (required limit : ℕ)
  | invalidPublicKey
  | invalidOpId
  | generationMismatch (expected actual : ℕ)
  | wrongSigner
  | eventTypeMismatch (expected actual : String)
  | topicNotFound
  | topicFull
  | notTopicMember
  | invalidSyncAck (message : String)
  | staleIncarnation
  | opTooLarge
  | admissionCommitted (admitted : Admitted) (source : Error)
  | actorSeqGap (expected actual : ℕ)
  | actorPrevMismatch
  | actorFork
  | actorAuthorMismatch
  | topicMismatch
  | missingDependency (id : OpId)
  | invalidGenesis
  | storage (message : String)
  | rejectedOp (id : OpId)
  | bootstrapPending (staged : ActorClock)
  | stagingCapacity (message : String)
  | evictionJournalFull
  | topicSealed
  | syncCapacity (message : String)
deriving DecidableEq

/-- `Result<T>` of the crate. -/
abbrev Result := Except Error

end Irokle
