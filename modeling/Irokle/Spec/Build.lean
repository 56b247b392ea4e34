import Irokle.Spec.Genesis

/-!
# Building a batch

`build_batch` (`src/oplog/admission.rs`) validates the ops of a batch in dependency order against
the stored topic, or against a fresh topic for a reset, and collects the entries to commit, the
ops to buffer and the projections it computed. Nothing is written.
-/

namespace Irokle

open Std

/-- `ReceiveEffects`: what a batch commits beside its entries. -/
abbrev ReceiveEffects := Option PeerId → List (Op × OpMeta) → TopicState → Result AdmissionEffects

/-- `MembershipCache`: projections kept across calls, oldest first, under an epoch. -/
structure MembershipCache where
  epoch : ℕ := 0
  states : Projections := ∅
  order : List OpId := []

/-- A fresh cache, whose epoch no earlier batch has seen. -/
def MembershipCache.cleared (cache : MembershipCache) : MembershipCache := { epoch := cache.epoch + 1 }

/-- What an oplog handle binds: the branch it may receive, and for a namespace view what the
other namespaces leave it. -/
structure View where
  receiveGenesis : Option (TopicId × OpId) := none
  quota : Option StagingQuota := none

/-- The genesis the handle is bound to, for this topic. -/
def View.boundGenesis (V : View) (t : TopicId) : Option OpId :=
  match V.receiveGenesis with
  | some (topic, genesis) => if topic = t then some genesis else none
  | none => none

/-- The batch so far. -/
structure Build where
  heads : BTreeSet OpId
  state : Option TopicState
  stateChanged : Bool := false
  overlay : Overlay := {}
  entries : List (Op × OpMeta) := []
  accepted : BTreeSet OpId := ∅
  pending : List (Op × BTreeSet OpId) := []
  projections : Projections := ∅
  projectionTips : BTreeSet OpId := ∅

/-- The state a genesis starts. -/
def genesisState (op : Op) (genesis : TopicGenesis) : TopicState where
  topicId := op.body.topicId
  eventTypeId := genesis.eventTypeId
  genesis := op.id
  heads := ∅
  members := genesis.initialPeers
  replicationPolicy := genesis.replicationPolicy
  membershipControls := ∅
  replicationPolicyControl := none

/-- The state after an admitted op, and whether it changed. -/
def nextState (state : Option TopicState) (op : Op) : Result (Option TopicState × Bool) :=
  match op.body.payload, state with
  | .genesis genesis, _ => .ok (some (genesisState op genesis), true)
  | .event _, state => .ok (state, false)
  | .control control, some state => .ok (some (applyControl state op control), true)
  | .control _, none => .error .topicNotFound

namespace Build

variable (b : Build)

/-- Refill an op whose id the chain accounts for. -/
def addRepair (op : Op) (m : OpMeta) (projections : Projections) : Build :=
  { b with
    overlay := { b.overlay with metas := b.overlay.metas.insert op.id m, ops := b.overlay.ops.insert op.id op }
    entries := b.entries ++ [(op, m)]
    accepted := b.accepted.insert op.id
    projections := projections }

/-- Append an admitted op. Taking its records out of the overlay at the end gives back what is
put in here, so they are listed as entries at once. -/
def addEntry (op : Op) (m : OpMeta) (state : Option TopicState × Bool) (projections : Projections) : Build :=
  let body := op.body
  { b with
    heads := (b.heads \ body.deps).insert op.id
    state := state.1
    stateChanged := b.stateChanged || state.2
    overlay := {
      ops := b.overlay.ops.insert op.id op
      metas := b.overlay.metas.insert op.id m
      tips := b.overlay.tips.insert (body.topicId, body.actorId) (body.actorSeq, op.id)
      index := b.overlay.index.insert (body.topicId, body.actorId, body.actorSeq) op.id }
    entries := b.entries ++ [(op, m)]
    accepted := b.accepted.insert op.id
    projections := projections
    projectionTips := body.deps }

/-- Buffer an op behind what it misses. -/
def addPending (op : Op) (missing : BTreeSet OpId) : Build :=
  { b with pending := b.pending ++ [(op, missing)] }

end Build

section Building

variable (E : Env) (n : ℕ) (r : Records) (reset : Bool) (verified : BTreeSet OpId)

/-- An op of the batch that is not stored completely. -/
def buildAbsent (repair : Bool) (b : Build) (op : Op) : Result Build :=
  let missing := missingDepsProjected r b.overlay op reset
  if repair then
    if missing.isEmpty then do
      let (m, projections) ← validateRepair E n r b.overlay b.state b.projections op
      return b.addRepair op m projections
    else .ok (b.addPending op missing)
  else if missing.isEmpty then do
    let (admission, projections) ←
      validateOpProjected E n r b.overlay reset b.heads b.state b.projections op
    match admission with
    | .duplicate => return { b with projections := projections }
    | .admitted =>
      let m ← metaForProjected r b.overlay op
      let state ← nextState b.state op
      return b.addEntry op m state projections
  else do
    let admission ← validatePendingOp E r b.overlay reset missing b.state op
    match admission with
    | .duplicate => return b
    | .admitted => return b.addPending op missing

/-- One op of the loop of `build_batch`. -/
def buildOp (b : Build) (op : Op) : Result Build := do
  E.validateFrame op
  if op.id ∉ verified then E.validate op
  match if reset then StoredOp.absent else storedOpState r op with
  | .complete => if b.state.isNone then throw .admissionConflict else return b
  | .repair => buildAbsent E n r reset true b op
  | .absent => buildAbsent E n r reset false b op

end Building

/-- `BuiltBatch`: a validated admission not yet committed. -/
structure BuiltBatch where
  accepted : BTreeSet OpId
  batch : AdmittedBatch
  pending : List (Op × BTreeSet OpId)
  projectionEpoch : ℕ
  projections : Projections
  projectionTips : BTreeSet OpId

/-- The cached projections of this branch. -/
def MembershipCache.branch (cache : MembershipCache) (t : TopicId) (expected : Option TopicState) : Projections :=
  cache.states.filter fun _ state => match expected with
    | some expected => decide (state.topicId = t ∧ state.genesis = expected.genesis)
    | none => false

/-- The batch state before the first op. -/
def Build.start (expected : Option TopicState) (projections : Projections) : Build where
  heads := (expected.map (·.heads)).getD ∅
  state := expected
  projections := projections

/-- The batch a finished build commits. -/
def Build.finish (b : Build) (t : TopicId) (expected : Option TopicState) (source : Option PeerId)
    (effects : Option ReceiveEffects) : Result AdmittedBatch := do
  let state := b.state.map fun state => { state with heads := b.heads }
  let effects ← match effects, state with
    | some compute, some state => if b.entries.isEmpty then .ok ⟨[]⟩ else compute source b.entries state
    | _, _ => .ok ⟨[]⟩
  return {
    topicId := t
    expectedHeads := (expected.map (·.heads)).getD ∅
    expectedTopicState := expected
    entries := b.entries
    heads := b.heads
    topicState := if b.stateChanged then state else none
    effects := effects }

/-- `build_batch`. -/
def buildBatch (E : Env) (V : View) (n : ℕ) (r : Records) (cache : MembershipCache)
    (source : Option PeerId) (ops : List Op) (verified : BTreeSet OpId) (reset : Bool)
    (effects : Option ReceiveEffects) : Result (Option BuiltBatch) := do
  let ops ← topologicalOps ops
  match ops.head? with
  | none => return none
  | some first =>
    let t := first.body.topicId
    refuseIf (ops.any fun op => op.body.topicId ≠ t) .topicMismatch
    let expected := if reset then none else r.topicState t
    let branch := (expected.map (·.genesis)).or ((ops.find? isStructuralGenesis).map (·.id))
    refuseIf ((V.boundGenesis t).any fun genesis => branch ≠ some genesis) .staleIncarnation
    let b ← ops.foldlM (buildOp E n r reset verified) (Build.start expected (cache.branch t expected))
    let batch ← b.finish t expected source effects
    return some {
      accepted := b.accepted
      batch := batch
      pending := b.pending
      projectionEpoch := cache.epoch
      projections := b.projections
      projectionTips := b.projectionTips }

end Irokle
