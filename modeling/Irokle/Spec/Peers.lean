import Irokle.Spec.Types

/-!
# The peers a topic is synced with

`select_sync_targets` (`src/node/peers.rs`) picks at most `max_sync_peers` peers of a topic's policy
scope. Every node ranks the same hubs, keeps one slot for a neighbour in the order of the ids, and
passes over peers whose recent attempts failed, with one of them tried again in every fourth epoch.
-/

namespace Irokle

open Std

/-- `PEER_FAILURE_LIMIT`. -/
def peerFailureLimit : ℕ := 2

/-- `PEER_PROBE_WINDOW`. -/
def peerProbeWindow : ℕ := 4

/-- `PEER_PROBE_PERIOD`. -/
def peerProbePeriod : ℕ := 4

/-- `SHARED_OVERLAP`. -/
def sharedOverlap : ℕ := 2

/-- The digests the ranking uses: `sync_peer_score`, and the id that stands for all nodes there. -/
structure PeerScores where
  syncPeerScore : TopicId → PeerId → PeerId → Digest
  shared : PeerId

/-- `PeerHealth`: failed attempts and the rotation epoch. -/
structure PeerHealth where
  attempts : BTreeMap PeerId ℕ := ∅
  epoch : ℕ := 0

/-- `PeerSelection`. -/
structure PeerSelection where
  peers : List PeerId := []
  blocked : Bool := false
deriving DecidableEq

/-- `CandidateOrder`. -/
structure CandidateOrder where
  candidates : List PeerId
  hubs : List PeerId
  ring : List PeerId
  probe : List PeerId

namespace PeerHealth

variable (health : PeerHealth)

/-- `PeerHealth::demoted`. -/
def demoted (peer : PeerId) : Bool :=
  health.attempts[peer]?.any fun failures => decide (failures ≥ peerFailureLimit)

/-- `PeerHealth::rotation`. -/
def rotation (len : ℕ) : ℕ := if len = 0 then 0 else health.epoch % len

/-- `PeerHealth::probes_demoted`. -/
def probesDemoted : Bool := decide (health.epoch ≠ 0 ∧ health.epoch % peerProbePeriod = 0)

end PeerHealth

/-- `take_slots`. -/
def takeSlots (selected : BTreeSet PeerId) (order : List PeerId) (start limit : ℕ) (health : PeerHealth)
    (demotedAllowed : Bool) :
    BTreeSet PeerId :=
  (List.range order.length).foldl (fun selected step =>
    if selected.size ≥ limit then selected
    else
      match order[(start + step) % order.length]? with
      | none => selected
      | some peer => if demotedAllowed || !health.demoted peer then selected.insert peer else selected) selected

/-- `ring_order`: the neighbours of the local peer in scope order, nearest first. -/
def ringOrder (scope : BTreeSet PeerId) (localPeer : PeerId) : List PeerId :=
  let nodes := scope.toList
  match nodes.idxOf? localPeer with
  | none => []
  | some index =>
    -- the offsets run from one to the number of nodes, and both sides are taken
    ((List.range (nodes.length - 1)).flatMap fun i =>
      [(index + (i + 1)) % nodes.length, (index + nodes.length - (i + 1)) % nodes.length]).foldl
        (fun ring index =>
        match nodes[index]? with
        | none => ring
        | some peer => if peer ≠ localPeer ∧ peer ∉ ring then ring ++ [peer] else ring) []

/-- `probe_order`. -/
def probeOrder (hubs ring : List PeerId) : List PeerId :=
  (hubs.take 1 ++ ring).foldl (fun probe peer =>
    if probe.length ≥ peerProbeWindow then probe else if peer ∈ probe then probe else probe ++ [peer]) []

variable (S : PeerScores)

/-- The policy scope of a topic, with the local peer. -/
def syncScope (localPeer : PeerId) (state : TopicState) : BTreeSet PeerId :=
  (if state.replicationPolicy.selectedPeers.isEmpty then state.members
    else state.replicationPolicy.selectedPeers ∩ state.members).insert localPeer

/-- `build_order`. -/
def buildOrder (t : TopicId) (localPeer : PeerId) (state : TopicState) : CandidateOrder :=
  let scope := syncScope localPeer state
  let candidates := scope.toList.filter fun peer => decide (peer ≠ localPeer)
  -- the highest score first, and of equal scores the smaller peer
  let hubs := candidates.insertionSort fun p q =>
    toLex (OrderDual.toDual (S.syncPeerScore t S.shared p), p) ≤ toLex
      (OrderDual.toDual (S.syncPeerScore t S.shared q), q)
  let ring := ringOrder scope localPeer
  { candidates, hubs, ring, probe := probeOrder hubs ring }

/-- The slots of a budget that does not cover every candidate. -/
def fillSlots (order : CandidateOrder) (max : ℕ) (health : PeerHealth) : BTreeSet PeerId :=
  let rotation := health.rotation order.probe.length
  let selected := if health.probesDemoted then takeSlots ∅ order.probe rotation 1 health true else ∅
  let selected :=
    if max = 1 then takeSlots selected order.probe rotation max health false
    -- at least one slot is left for a neighbour
    else takeSlots selected order.hubs 0 (min (sharedOverlap + 1) (max - 1)) health false
  let selected := takeSlots selected order.ring rotation max health false
  takeSlots selected order.candidates rotation max health true

/-- `select_sync_targets`. -/
def selectSyncTargets (t : TopicId) (localPeer : PeerId) (state : TopicState)
    (health : PeerHealth) : PeerSelection :=
  let max := state.replicationPolicy.maxSyncPeers
  if max = 0 then {}
  else
    let order := buildOrder S t localPeer state
    if order.candidates.isEmpty then {}
    else
      { peers := if order.candidates.length ≤ max then order.candidates else (fillSlots order max health).toList
        blocked := order.candidates.all health.demoted }

end Irokle
