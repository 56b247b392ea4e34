import Irokle.Spec.Validate

/-!
# Genesis collisions

When a batch brings a structural genesis for a topic that already has one, the smaller id wins
(`src/oplog/genesis.rs`): a smaller genesis naming the same initial peers resets the topic, and
any other genesis is dropped with its descendants in the batch.
-/

namespace Irokle

open Std

/-- `ResetPlan`: the state a reset replaces and the record of what it discards. -/
structure ResetPlan where
  expectedState : TopicState
  eviction : TopicEviction

/-- The ids of `ops` that depend on `id` and are not seen yet, in order. -/
def newDescendants (ops : List Op) (id : OpId) (seen : BTreeSet OpId) : List OpId :=
  ((ops.filter fun op => decide (id ∈ op.body.deps ∧ op.id ∉ seen)).map (·.id)).dedup

/-- The loop of `without_descendants`. -/
def descendantWalk (ops : List Op) : ℕ → List OpId → BTreeSet OpId → BTreeSet OpId
  | 0, _, seen => seen
  | _ + 1, [], seen => seen
  | fuel + 1, id :: queue, seen =>
    let next := newDescendants ops id seen
    descendantWalk ops fuel (queue ++ next) (next.foldl (fun s id => s.insert id) seen)

/-- `without_descendants`: drop `rejected` and what depends on it inside the batch. Each op is
queued once, so the number of ops bounds the walk. -/
def withoutDescendants (ops : List Op) (rejected : OpId) : List Op :=
  let dropped := descendantWalk ops (ops.length + 2) [rejected] {rejected}
  ops.filter fun op => decide (op.id ∉ dropped)

section Store

variable (E : Env) (r : Records)

/-- The initial peers a genesis names. -/
def initialPeersOf (op : Op) : Option (BTreeSet PeerId) :=
  match op.body.payload with
  | .genesis genesis => some genesis.initialPeers
  | _ => none

/-- `same_peers`: the candidate names the initial peers of the current genesis, its author among
them. -/
def samePeers (genesis : OpId) (candidate : Op) : Bool :=
  match r.ops[genesis]?.bind initialPeersOf, initialPeersOf candidate with
  | some current, some named => decide (named = current ∧ candidate.body.author ∈ named)
  | _, _ => false

/-- `evicted_ops`: the payloads of the listed ops in the order of their actor positions. -/
def evictedOps (ids : BTreeSet OpId) : List EvictedOp :=
  let metas := ids.toList.filterMap fun id => r.metas[id]?
  let sorted := metas.insertionSort fun a b => toLex (a.actorId, a.actorSeq) ≤ toLex (b.actorId, b.actorSeq)
  sorted.filterMap fun m => r.ops[m.id]?.map fun op =>
    { opId := m.id, actorId := m.actorId, author := m.author, actorSeq := m.actorSeq
      payload := op.body.payload }

/-- `extract_eviction`. -/
def extractEviction (t : TopicId) (state : TopicState) (winning : OpId) : TopicEviction where
  topicId := t
  losingGenesis := state.genesis
  winningGenesis := winning
  evicted := evictedOps r ((r.listOpIds t).erase state.genesis)

/-- `resolve_genesis_collision`: the ops to admit, the reset when the local topic loses, and the
genesis that was refused. -/
def resolveGenesisCollision (ops : List Op) (verified : BTreeSet OpId) :
    Result (List Op × Option ResetPlan × Option OpId) :=
  match ops.find? isStructuralGenesis with
  | none => .ok (ops, none, none)
  | some genesis =>
    match r.topicState genesis.body.topicId with
    | none => .ok (ops, none, none)
    | some state =>
      if state.genesis = genesis.id then .ok (ops, none, none)
      else do
        if genesis.id ∉ verified then E.validate genesis
        if genesis.id < state.genesis ∧ samePeers r state.genesis genesis = true then
          return (ops, some ⟨state, extractEviction r genesis.body.topicId state genesis.id⟩, none)
        return (withoutDescendants ops genesis.id, none, some genesis.id)

end Store

end Irokle
