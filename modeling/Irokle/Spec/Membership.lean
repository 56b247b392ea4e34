import Irokle.Spec.Memory

/-!
# Topic state

The state of a topic is a fold over its genesis and its controls (`src/oplog/membership.rs`). Of
the controls on one peer, and of those on the replication policy, the one with the greatest
`ControlKey` wins, so the fold can be continued op by op or merged from the states of several
dependencies.
-/

namespace Irokle

open Std

/-- `control_key`. -/
def controlKey (op : Op) : ControlKey :=
  ⟨op.body.generation, op.body.actorId, op.body.actorSeq, op.id⟩

/-- `set_membership_control`: the controls after a write and whether it took effect. -/
def setMembershipControl (controls : BTreeMap PeerId (ControlKey × Bool)) (peer : PeerId)
    (key : ControlKey) (isMember : Bool) : BTreeMap PeerId (ControlKey × Bool) × Bool :=
  match controls[peer]? with
  | some current =>
    if current.1 < key then (controls.insert peer (key, isMember), true) else (controls, false)
  | none => (controls.insert peer (key, isMember), true)

/-- Add or remove a member. -/
def setMember (members : BTreeSet PeerId) (peer : PeerId) (isMember : Bool) : BTreeSet PeerId :=
  if isMember then members.insert peer else members.erase peer

/-- Apply a membership control to a state. -/
def TopicState.setMembership (state : TopicState) (peer : PeerId) (key : ControlKey) (isMember : Bool) :
    TopicState :=
  let controls := setMembershipControl state.membershipControls peer key isMember
  { state with
    membershipControls := controls.1
    members := if controls.2 then setMember state.members peer isMember else state.members }

/-- Apply a policy control to a state. -/
def TopicState.setPolicy (state : TopicState) (key : ControlKey) (policy : ReplicationPolicy) : TopicState :=
  match state.replicationPolicyControl with
  | some current =>
    if current.1 < key then
      { state with replicationPolicyControl := some (key, policy), replicationPolicy := policy }
    else state
  | none => { state with replicationPolicyControl := some (key, policy), replicationPolicy := policy }

/-- `apply_control`. -/
def applyControl (state : TopicState) (op : Op) : TopicControl → TopicState
  | .addPeer peer => state.setMembership peer (controlKey op) true
  | .removePeer peer => state.setMembership peer (controlKey op) false
  | .setReplicationPolicy policy => state.setPolicy (controlKey op) policy

/-- What `materialize_topic_state` has collected after some of the ops. -/
structure Materializing where
  genesis : Option (OpId × TopicId × TopicGenesis) := none
  topicId : Option TopicId := none
  memberControls : BTreeMap PeerId (ControlKey × Bool) := ∅
  policyControl : Option (ControlKey × ReplicationPolicy) := none

/-- One op of the fold. -/
def Materializing.step (s : Materializing) (op : Op) : Result Materializing := do
  refuseIf (s.topicId.any (· ≠ op.body.topicId)) .topicMismatch
  let s := { s with topicId := some (s.topicId.getD op.body.topicId) }
  match op.body.payload with
  | .genesis genesis =>
    refuseIf (s.genesis.any (·.1 ≠ op.id)) .invalidGenesis
    return { s with genesis := some (s.genesis.getD (op.id, op.body.topicId, genesis)) }
  | .control (.addPeer peer) =>
    return { s with memberControls := (setMembershipControl s.memberControls peer (controlKey op) true).1 }
  | .control (.removePeer peer) =>
    return { s with memberControls := (setMembershipControl s.memberControls peer (controlKey op) false).1 }
  | .control (.setReplicationPolicy policy) =>
    if s.policyControl.all (·.1 < controlKey op) then
      return { s with policyControl := some (controlKey op, policy) }
    else return s
  | .event _ => return s

/-- `materialize_topic_state`. -/
def materializeTopicState (ops : List Op) (heads : BTreeSet OpId) : Result TopicState := do
  let s ← ops.foldlM Materializing.step {}
  match s.genesis with
  | none => throw .topicNotFound
  | some (id, topicId, genesis) =>
    return {
      topicId := topicId
      eventTypeId := genesis.eventTypeId
      genesis := id
      heads := heads
      members := s.memberControls.toList.foldl (fun members e => setMember members e.1 e.2.2)
        genesis.initialPeers
      replicationPolicy := (s.policyControl.map (·.2)).getD genesis.replicationPolicy
      membershipControls := s.memberControls
      replicationPolicyControl := s.policyControl }

/-- Merge one state into another of the same genesis. -/
def mergeState (current incoming : TopicState) : TopicState :=
  let current := incoming.membershipControls.toList.foldl
    (fun current e => current.setMembership e.1 e.2.1 e.2.2) current
  match incoming.replicationPolicyControl with
  | some (key, policy) => current.setPolicy key policy
  | none => current

/-- `merge_states`. -/
def mergeStates (projections : BTreeMap OpId TopicState) : List OpId → Option TopicState → Result TopicState
  | [], merged => match merged with
    | some state => .ok state
    | none => .error .topicNotFound
  | id :: ids, merged => do
    match projections[id]? with
    | none => throw (.missingDependency id)
    | some incoming =>
      match merged with
      | none => mergeStates projections ids (some incoming)
      | some current =>
        refuseIf (current.genesis ≠ incoming.genesis) .invalidGenesis
        mergeStates projections ids (some (mergeState current incoming))

end Irokle
