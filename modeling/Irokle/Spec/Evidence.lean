import Irokle.Spec.Buffer

/-!
# Acknowledgements and obligations

What stored evidence proves about a peer and what a peer is still owed
(`src/storage/evidence.rs`, and the functions of `src/storage/memory/mod.rs` that write them).
-/

namespace Irokle

open Std

/-- `branch_matches`. -/
def branchMatches (state : Option TopicState) (expected : Option OpId) : Result Unit :=
  if state.map (·.genesis) = expected then .ok () else .error .staleIncarnation

/-- `peer_departed`. -/
def peerDeparted (state : Option TopicState) (peer : PeerId) (expected : Option OpId) : Bool :=
  decide (state.map (·.genesis) = expected) &&
    match state with
    | some state => !state.members.contains peer
    | none => true

/-- `SyncObligation::is_empty`. -/
def SyncObligation.isEmpty (o : SyncObligation) : Bool :=
  match o.target with
  | .clock clock => clock.isEmpty
  | .repair ids => ids.isEmpty

/-- `ObligationKind::of`. -/
def ObligationKind.of (o : SyncObligation) : ObligationKind :=
  match o.target with
  | .clock _ => .clock
  | .repair _ => .repair

/-- `ack_covers`. -/
def ackCovers (ack : Option PeerAck) (genesis : Option OpId) (o : SyncObligation) : Bool :=
  match o.target, ack with
  | .clock target, some ack => genesis.isSome && ack.genesis == genesis && ack.clock.dominates target
  | _, _ => false

/-- `merged_obligation`. -/
def mergedObligation (existing : Option SyncObligation) (incoming : SyncObligation) :
    Result SyncObligation :=
  let tooLong : Error := .storage "repair obligation exceeds its id limit"
  let checked : Result Unit := match incoming.target with
    | .repair ids => if ids.size > maxRepairIds then .error tooLong else .ok ()
    | .clock _ => .ok ()
  match checked, existing with
  | .error e, _ => .error e
  | .ok (), none => .ok incoming
  | .ok (), some merged =>
    match merged.target, incoming.target with
    | .clock stored, .clock clock => .ok { merged with target := .clock (stored.merge clock) }
    | .repair stored, .repair ids =>
      if (stored ∪ ids).size > maxRepairIds then .error tooLong
      else .ok { merged with target := .repair (stored ∪ ids) }
    | _, _ => .error (.storage "obligation kinds differ under one key")

/-- `settled_obligation`: what remains after a certified ack. -/
def settledObligation (o : SyncObligation) (ack : PeerAck) (metas : BTreeMap OpId OpMeta) :
    Option SyncObligation :=
  let target : ObligationTarget := match o.target with
    | .clock target => .clock (target.toList.foldl
        (fun rest e => if ack.clock.get e.1 < e.2 then rest.observe e.1 e.2 else rest) ∅)
    | .repair ids => .repair (ids.filter fun id =>
        !(decide (id ∈ ack.heads) || match metas[id]? with
          | some m => decide (m.topicId = o.topicId ∧ m.actorSeq ≤ ack.clock.get m.actorId)
          | none => false))
  let rest := { o with target := target }
  if rest.isEmpty then none else some rest

/-- `ack_reached_op`. -/
def ackReachedOp (ack : PeerAck) (genesis id : OpId) (m : OpMeta) : Bool :=
  decide (ack.genesis = some genesis ∧ (id ∈ ack.heads ∨ m.actorSeq ≤ ack.clock.get m.actorId))

/-- `AckCommit`. -/
inductive AckCommit
  | certify | retain
deriving DecidableEq

/-- `ack_commit`. -/
def ackCommit (state : Option TopicState) (ack : PeerAck) : Result AckCommit :=
  match state with
  | none => .ok .retain
  | some state =>
    if ack.genesis ≠ some state.genesis then .error .staleIncarnation
    else if ack.peerId ∉ state.members then .error .notTopicMember
    else .ok .certify

/-- `same_incarnation`. -/
def sameIncarnation (existing incoming : PeerAck) : Bool :=
  decide (existing.peerId = incoming.peerId ∧ existing.topicId = incoming.topicId ∧
    existing.genesis.isSome ∧ existing.genesis = incoming.genesis)

/-- `stored_ack_dominates`. -/
def storedAckDominates (existing incoming : PeerAck) : Bool :=
  sameIncarnation existing incoming && existing.clock.dominates incoming.clock

/-- `merged_peer_ack`. -/
def mergedPeerAck (existing incoming : PeerAck) : PeerAck :=
  if sameIncarnation existing incoming then { incoming with clock := incoming.clock.merge existing.clock }
  else incoming

namespace Evidence

variable (v : Evidence)

/-- The stored obligation of a kind. -/
def obligation (t : TopicId) (peer : PeerId) (kind : ObligationKind) : Option SyncObligation :=
  v.obligations[(t, peer)]?.bind fun records => records[kind]?

/-- `merged_obligation_locked`. -/
def mergedObligationLocked (o : SyncObligation) : Result SyncObligation :=
  mergedObligation (v.obligation o.topicId o.peerId (ObligationKind.of o)) o

/-- `put_obligation_locked`. -/
def putObligationLocked (o : SyncObligation) : Evidence :=
  if o.isEmpty then v
  else
    let key := (o.topicId, o.peerId)
    let records := (v.obligations[key]?.getD ∅).insert (ObligationKind.of o) o
    { v with obligations := v.obligations.insert key records }

/-- Drop what is stored about a peer in a topic. -/
def dropPeer (t : TopicId) (peer : PeerId) : Evidence :=
  { peerAcks := v.peerAcks.erase (peer, t)
    obligations := v.obligations.erase (t, peer)
    syncStatuses := v.syncStatuses.erase (t, peer) }

/-- Drop what is stored about every peer of a topic. -/
def dropTopic (t : TopicId) : Evidence :=
  { peerAcks := v.peerAcks.filter fun k _ => decide (k.2 ≠ t)
    obligations := v.obligations.filter fun k _ => decide (k.1 ≠ t)
    syncStatuses := v.syncStatuses.filter fun k _ => decide (k.1 ≠ t) }

/-- Replace or clear the obligation of one kind by what an ack leaves of it. -/
def settleKind (ack : PeerAck) (metas : BTreeMap OpId OpMeta) (v : Evidence)
    (e : ObligationKind × SyncObligation) : Evidence :=
  match settledObligation e.2 ack metas with
  | some rest => v.putObligationLocked rest
  | none =>
    let key := (ack.topicId, ack.peerId)
    match v.obligations[key]? with
    | some records => { v with obligations := v.obligations.insert key (records.erase e.1) }
    | none => v

/-- The ack stored once `ack` arrives. -/
def effectiveAck (ack : PeerAck) : PeerAck :=
  match v.peerAcks[(ack.peerId, ack.topicId)]? with
  | some existing => if storedAckDominates existing ack then existing else mergedPeerAck existing ack
  | none => ack

/-- `apply_ack_locked`: merge the ack and settle what it covers. -/
def applyAckLocked (reserve : ℕ → Result Unit) (r : Records) (ack : PeerAck) : Result (ℕ × Evidence) := do
  let commit ← ackCommit r.topics[ack.topicId]? ack
  reserve 0
  let effective := v.effectiveAck ack
  reserve 1
  let key := (effective.topicId, effective.peerId)
  let records := if commit = .retain then [] else (v.obligations[key]?.getD ∅).toList
  let v := { v with peerAcks := v.peerAcks.insert (ack.peerId, ack.topicId) effective }
  let v := records.foldl (settleKind effective r.metas) v
  let cleared := (records.filter fun e => (settledObligation e.2 effective r.metas).isNone).length
  let obligations := if v.obligations[key]? = some ∅ then v.obligations.erase key else v.obligations
  .ok (cleared, { v with obligations := obligations })

end Evidence

end Irokle
