import Irokle.Spec.Receive
import Irokle.Spec.Staging

/-!
# Evidence of what peers hold

Signed acknowledgements, matched fingerprints and forwarding obligations (`src/sync/evidence.rs`).
An ack is reduced to the ancestry of the heads it names that this node holds before it is stored.
Whether a topic is causally whole is the verdict of the integrity scan, which the functions here take
as an argument.
-/

namespace Irokle

open Std

/-- `SyncAck`, apart from its signature. -/
structure SyncAck where
  topicId : TopicId
  peerId : PeerId
  genesis : Option OpId
  accepted : BTreeSet OpId
  heads : BTreeSet OpId
  clock : ActorClock
deriving DecidableEq

section Evidence

variable (E : Env) (peer : PeerId) (r : Records)

/-- `ack_frontier`: what an ack may certify. A topic that is not whole certifies nothing. -/
def ackFrontier (whole : Bool) (t : TopicId) : Result (TopicState × BTreeSet OpId × ActorClock) :=
  match r.topicState t with
  | none => .error .topicNotFound
  | some state => .ok (if whole then (state, state.heads, r.clockOf t) else (state, ∅, ∅))

/-- One id an ack names, checked when this node holds it; a held head is collected. -/
def checkNamed (ack : SyncAck) (held : BTreeSet OpId) (id : OpId) : Result (BTreeSet OpId) :=
  match r.metas[id]? with
  | none => .ok held
  | some m => do
    refuseIf (m.topicId ≠ ack.topicId) .topicMismatch
    refuseIf (id ∈ ack.heads ∧ ack.clock.get m.actorId < m.actorSeq)
      (.invalidSyncAck ("head " ++ id.display ++ " is not represented by ack clock"))
    return if id ∈ ack.heads then held.insert id else held

/-- The clock of the ancestry of held heads. -/
def heldClock (held : List OpId) : Result ActorClock :=
  held.foldlM (fun clock head => match r.metas[head]? with
    | none => .error (.missingDependency head)
    | some m => .ok ((clock.merge m.observedClock).observe m.actorId m.actorSeq)) ∅

/-- `validate_ack_in`: refuse an invalid ack, and return what a valid one certifies. -/
def validateAck (ack : SyncAck) : Result (Option PeerAck) :=
  match r.topicState ack.topicId with
  | none => .error .topicNotFound
  | some state => do
    match ack.genesis with
    | some genesis => refuseIf (genesis ≠ state.genesis) .staleIncarnation
    | none => throw (.invalidSyncAck "acknowledgement does not name the topic incarnation it certifies")
    refuseIf (ack.peerId ∉ state.members) .notTopicMember
    let localActor := E.actorIdFor ack.topicId peer
    let localSeq := (r.clockOf ack.topicId).get localActor
    let claimedSeq := ack.clock.get localActor
    refuseIf (claimedSeq > localSeq) (.invalidSyncAck ("clock for actor " ++ localActor.display ++
      " claims seq " ++ toString claimedSeq ++ ", local seq is " ++ toString localSeq))
    let held ← (ack.accepted.toList ++ ack.heads.toList).foldlM (checkNamed r ack) ∅
    if held.isEmpty then return none
    let clock ← heldClock r held.toList
    return some ⟨ack.peerId, ack.topicId, ack.genesis, held, clock⟩

end Evidence

section Apply

variable (E : Env) (peer : PeerId) (reserve : ℕ → Result Unit) (inner : MemoryInner)

/-- `apply_ack`, where `signed` is the answer of `verify_signature`. -/
def applyAck (signed : Result Unit) (ack : SyncAck) : Result Evidence := do
  signed
  match ← validateAck E peer inner.toRecords ack with
  | none => return inner.toEvidence
  | some evidence => return (← applyPeerAck reserve inner evidence).2

/-- One validated ack of a batch, the `e.2`-th: its outcome is kept, and what it certifies is applied to the
evidence so far. -/
def applyNext (acc : List (Result Unit) × Evidence) (e : Result (Option PeerAck) × ℕ) : List
    (Result Unit) × Evidence :=
  match e.1 with
  | .error err => (acc.1 ++ [.error err], acc.2)
  | .ok none => (acc.1 ++ [.ok ()], acc.2)
  | .ok (some evidence) =>
    match acc.2.applyAckLocked (fun point => reserve (2 * e.2 + point)) inner.toRecords evidence with
    | .ok (_, v) => (acc.1 ++ [.ok ()], v)
    | .error err => (acc.1 ++ [.error err], acc.2)

/-- `apply_acks`: every ack is verified and validated alone, then all that certify something are applied under
one lock. -/
def applyAcks (acks : List (Result Unit × SyncAck)) : List (Result Unit) × Evidence :=
  let validated : List (Result (Option PeerAck)) :=
    acks.map fun a => a.1.bind fun _ => validateAck E peer inner.toRecords a.2
  validated.zipIdx.foldl (applyNext reserve inner) ([], inner.toEvidence)

/-- The record of a whole frontier for a peer that is a member. -/
def frontierAck (whole : Bool) (member : PeerId) (t : TopicId) : Result PeerAck := do
  let (state, heads, clock) ← ackFrontier inner.toRecords whole t
  refuseIf (member ∉ state.members) .notTopicMember
  return ⟨member, t, some state.genesis, heads, clock⟩

/-- `record_peer_synced`. -/
def recordPeerSynced (whole : Bool) (member : PeerId) (t : TopicId) : Result Evidence := do
  let ack ← frontierAck inner whole member t
  return (← applyPeerAck reserve inner ack).2

/-- `record_fingerprint`: the evidence after it, and whether the fingerprint matched. -/
def recordFingerprint (whole : Bool) (member : PeerId) (t : TopicId) (fingerprint : Digest) : Result
    (Bool × Evidence) := do
  let ack ← frontierAck inner whole member t
  if E.topicFingerprintFor ack.heads ack.clock ≠ fingerprint then return (false, inner.toEvidence)
  return (true, (← applyPeerAck reserve inner ack).2)

end Apply

/-- The loop of `topic_observed_clock` over the other members: evidence of another branch counts for nothing. -/
def observedBy (inner : MemoryInner) (t : TopicId) (genesis : OpId) : List PeerId → ActorClock → ActorClock
  | [], clock => clock
  | p :: rest, clock =>
    match inner.peerAcks[(p, t)]?.filter fun ack => decide (ack.genesis = some genesis) with
    | some ack => observedBy inner t genesis rest (clock.intersect ack.clock)
    | none => ∅

/-- `topic_observed_clock`: what every other member holds of the current branch. -/
def topicObservedClock (peer : PeerId) (inner : MemoryInner) (t : TopicId) : Result ActorClock :=
  match inner.topicState t with
  | none => .error .topicNotFound
  | some state =>
    .ok (observedBy inner t state.genesis (state.members.toList.filter fun p => decide (p ≠ peer))
      (inner.clockOf t))

end Irokle
