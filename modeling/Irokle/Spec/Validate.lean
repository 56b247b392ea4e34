import Irokle.Spec.Topology

/-!
# Validation of one op

The checks an op passes before it is admitted or buffered (`src/oplog/admission.rs`,
`src/oplog/pending.rs`). They read the store through the overlay of the ops admitted earlier in
the same batch. Whether the author was a member at the op's dependencies is answered from the
current state when the op covers every control that state applies, and otherwise by projecting
the membership of its ancestry, down to projections that are already known.
-/

namespace Irokle

open Std

/-- `StoredOp`: how much of an op the store holds. -/
inductive StoredOp
  | absent | repair | complete
deriving DecidableEq

/-- `OpAdmission`. -/
inductive OpAdmission
  | admitted | duplicate
deriving DecidableEq

/-- `BatchOverlay`: what the ops admitted earlier in a batch add. -/
structure Overlay where
  ops : BTreeMap OpId Op := ∅
  metas : BTreeMap OpId OpMeta := ∅
  tips : BTreeMap (TopicId × ActorId) (ℕ × OpId) := ∅
  index : BTreeMap (TopicId × ActorId × ℕ) OpId := ∅

/-- States known at the ops that carry them. -/
abbrev Projections := BTreeMap OpId TopicState

/-- `MAX_TYPE_BYTES`. -/
def maxTypeBytes : ℕ := 1024
/-- `MAX_PROJECTION_BYTES`. -/
def maxProjectionBytes : ℕ := 16 * 1024 * 1024
/-- `MAX_WORKSPACE_BYTES`. -/
def maxWorkspaceBytes : ℕ := 256 * 1024 * 1024
/-- `WALK_BYTES`. -/
def walkBytes : ℕ := 64
/-- `SEEN_BYTES`. -/
def seenBytes : ℕ := 80
/-- `HOLD_BYTES`. -/
def holdBytes : ℕ := 64 * 1024
/-- `PEER_BYTES`. -/
def peerBytes : ℕ := 72
/-- `CONTROL_BYTES`. -/
def controlBytes : ℕ := 264
/-- `STATE_BASE_BYTES`. -/
def stateBaseBytes : ℕ := 512

/-- `checked_next`. -/
def checkedNext (n : ℕ) : Result ℕ :=
  match checkedSucc n with
  | some m => .ok m
  | none => .error .invalidOpId

/-- `ensure_event_type`. -/
def ensureEventType (expected actual : String) : Result Unit :=
  refuseIf (expected ≠ actual) (.eventTypeMismatch expected actual)

section Reads

variable (r : Records) (o : Overlay)

/-- `meta_projected`, and `header_projected` which reads a part of it. -/
def metaProjected (id : OpId) : Result OpMeta :=
  match o.metas[id]?.or r.metas[id]? with
  | some m => .ok m
  | none => .error (.missingDependency id)

/-- `op_projected`. -/
def opProjected (id : OpId) : Result Op :=
  match o.ops[id]?.or r.ops[id]? with
  | some op => .ok op
  | none => .error (.missingDependency id)

/-- The clock an op observes: everything its dependencies observed, and they themselves. -/
def observedClockProjected (t : TopicId) (deps : List OpId) : Result ActorClock :=
  deps.foldlM (fun (clock : ActorClock) dep => do
    let m ← metaProjected r o dep
    refuseIf (m.topicId ≠ t) .topicMismatch
    return (clock.merge m.observedClock).observe m.actorId m.actorSeq) ∅

/-- The metadata of an op that observed `clock`. -/
def metaOf (op : Op) (clock : ActorClock) : OpMeta where
  id := op.id
  topicId := op.body.topicId
  author := op.body.author
  actorId := op.body.actorId
  actorSeq := op.body.actorSeq
  actorPrev := op.body.actorPrev
  deps := op.body.deps
  generation := op.body.generation
  observedClock := clock
  ready := true
  missingDeps := ∅

/-- `meta_for_projected`. -/
def metaForProjected (op : Op) : Result OpMeta := do
  let clock ← observedClockProjected r o op.body.topicId op.body.deps.toList
  return metaOf op clock

/-- `stored_op_state`. -/
def storedOpState (op : Op) : StoredOp :=
  let hasOp := r.ops.contains op.id
  let hasMeta := r.metas.contains op.id
  if hasOp && hasMeta then .complete
  else if hasOp || hasMeta then .repair
  else if r.actorBySeq[(op.body.topicId, op.body.actorId, op.body.actorSeq)]? = some op.id ∨
      r.childrenOf op.id ≠ ∅ then .repair
  else .absent

/-- `stored_actor_index`. -/
def storedActorIndex (body : OpBody) (reset : Bool) : Option OpId :=
  if reset then none else r.actorBySeq[(body.topicId, body.actorId, body.actorSeq)]?

/-- `stored_actor_tip`. -/
def storedActorTip (body : OpBody) (reset : Bool) : Option (ℕ × OpId) :=
  if reset then none else r.actorTip[(body.topicId, body.actorId)]?

/-- The op at an actor position, stored or admitted earlier in the batch. -/
def slotHolder (body : OpBody) (reset : Bool) : Option OpId :=
  (storedActorIndex r body reset).or o.index[(body.topicId, body.actorId, body.actorSeq)]?

/-- The tip of an actor, with the ops admitted earlier in the batch. -/
def tipProjected (body : OpBody) (reset : Bool) : Option (ℕ × OpId) :=
  o.tips[(body.topicId, body.actorId)]?.or (storedActorTip r body reset)

/-- `missing_deps_projected`. -/
def missingDepsProjected (op : Op) (reset : Bool) : BTreeSet OpId :=
  op.body.deps.filter fun dep => !o.ops.contains dep && (reset || !r.depResolvable dep)

/-- One past the highest generation of the dependencies. -/
def generationProjected (deps : List OpId) : Result ℕ :=
  deps.foldlM (fun generation dep => do
    let m ← metaProjected r o dep
    return max generation (← checkedNext m.generation)) 0

end Reads

/-- `next_actor_position`. -/
def nextActorPosition (tip : Option (ℕ × OpId)) : Result (ℕ × Option OpId) :=
  match tip with
  | some (seq, id) => do return (← checkedNext seq, some id)
  | none => .ok (1, none)

/-! ## Projection of the membership -/

/-- `state_bytes`. -/
def stateBytes (state : TopicState) : ℕ :=
  let peers := state.members.size + state.replicationPolicy.selectedPeers.size +
    (state.replicationPolicyControl.map (·.2.selectedPeers.size)).getD 0
  stateBaseBytes + state.eventTypeId.utf8ByteSize + peerBytes * peers +
    controlBytes * state.membershipControls.size

/-- `fold_bytes`. -/
def foldBytes (op : Op) : ℕ :=
  match op.body.payload with
  | .genesis genesis => genesis.eventTypeId.utf8ByteSize +
      peerBytes * (genesis.initialPeers.size + 2 * genesis.replicationPolicy.selectedPeers.size)
  | .control (.setReplicationPolicy policy) => 2 * peerBytes * policy.selectedPeers.size
  | .control _ => controlBytes + peerBytes
  | .event _ => 0

/-- `projection_bytes`. -/
def projectionBytes (projections : Projections) : ℕ := (projections.toList.map fun e => stateBytes e.2).sum

/-- How many holds cover `used` bytes. -/
def holdCount (used : ℕ) : ℕ := (used + holdBytes - 1) / holdBytes

section Projection

variable (E : Env) (n : ℕ) (r : Records) (o : Overlay) (t : TopicId) (deps : BTreeSet OpId)

/-- `Workspace::charge`: the bytes in use after `bytes` more, taken from the store in holds. -/
def workspaceCharge (used bytes : ℕ) : Result ℕ :=
  let after := min (used + bytes) (u64Size - 1)
  if after > maxWorkspaceBytes then .error (.memoryPressure .workspace after maxWorkspaceBytes)
  else
    match (List.range' (holdCount used) (holdCount after - holdCount used)).findSome? (E.holds n deps) with
    | some fault => .error fault.error
    | none => .ok after

/-- What a walk over the ancestry has collected. -/
structure Walk where
  used : ℕ
  known : BTreeSet OpId := ∅
  folded : List Op := []
  grows : ℕ := 0
  seen : BTreeSet OpId := ∅

/-- Visit one op of the ancestry: its dependencies go on the walk, its control is folded. -/
def projectVisit (projections : Projections) (w : Walk) (id : OpId) : Result (Walk × List OpId) := do
  let used ← workspaceCharge E n deps w.used seenBytes
  let w := { w with used := used, seen := w.seen.insert id }
  if projections.contains id then return ({ w with known := w.known.insert id }, [])
  let m ← metaProjected r o id
  refuseIf (m.topicId ≠ t) .topicMismatch
  let used ← workspaceCharge E n deps w.used (walkBytes * m.deps.size)
  let op ← opProjected r o id
  match op.body.payload with
  | .event _ => return ({ w with used := used }, m.deps.toList.reverse)
  | _ =>
    let used ← workspaceCharge E n deps used (3 * E.opBytes op)
    return ({ w with used := used, grows := w.grows + foldBytes op, folded := w.folded ++ [op] },
      m.deps.toList.reverse)

/-- The loop of `project_membership`; the walk is a stack with its top first. -/
def projectWalk (projections : Projections) : ℕ → List OpId → Walk → Result Walk
  | 0, _, _ => .error (.storage "projection walk exceeds the stored edges")
  | _ + 1, [], w => .ok w
  | fuel + 1, id :: walk, w =>
    if id ∈ w.seen then projectWalk projections fuel walk w
    else do
      let (w, next) ← projectVisit E n r o t deps projections w id
      projectWalk projections fuel (next ++ walk) w

/-- Every id enters the walk over a stored edge, so the edges bound it. -/
def walkFuel : ℕ :=
  deps.size + (r.metas.toList.map (·.2.deps.size)).sum + (o.metas.toList.map (·.2.deps.size)).sum + 1

/-- Continue a merged state with one op of the ancestry. -/
def applyFolded (state : TopicState) (op : Op) : Result TopicState :=
  match op.body.payload with
  | .genesis _ => if op.id ≠ state.genesis then .error .invalidGenesis else .ok state
  | .control control => .ok (applyControl state op control)
  | .event _ => .ok state

/-- The state of one dependency replaces the known states it covers, within the byte budget. -/
def keepProjection (known : BTreeSet OpId) (state : TopicState) (projections : Projections) : Projections :=
  match deps.toList with
  | [dep] =>
    let rest := known.toList.foldl (fun ps id => ps.erase id) projections
    if projectionBytes rest + stateBytes state ≤ maxProjectionBytes then rest.insert dep state else rest
  | _ => projections

/-- Walk the ancestry of `deps` and fold what it holds. -/
def projectAncestry (projections : Projections) : Result (TopicState × Projections) := do
  let used ← workspaceCharge E n deps 0 (walkBytes * deps.size)
  let w ← projectWalk E n r o t deps projections (walkFuel r o deps) deps.toList.reverse { used := used }
  let state ←
    if w.known.isEmpty then do
      let _ ← workspaceCharge E n deps w.used (stateBaseBytes + 2 * w.grows)
      materializeTopicState w.folded ∅
    else do
      let merged := (w.known.toList.map fun id => (projections[id]?.map stateBytes).getD 0).sum
      let _ ← workspaceCharge E n deps w.used (merged + w.grows)
      let state ← mergeStates projections w.known.toList none
      w.folded.foldlM applyFolded state
  return (state, keepProjection deps w.known state projections)

/-- `project_membership`: the state at `deps` and the projections kept for the batch. -/
def projectMembership (projections : Projections) : Result (TopicState × Projections) :=
  match deps.toList with
  | [dep] =>
    match projections[dep]? with
    | some state => .ok (state, projections)
    | none => projectAncestry E n r o t deps projections
  | _ => projectAncestry E n r o t deps projections

end Projection

/-! ## Admission checks -/

section Checks

variable (E : Env) (n : ℕ) (r : Records) (o : Overlay)

/-- `covers_controls`: the op observed every control that `state` applies. -/
def coversControls (op : Op) (state : TopicState) : Result Bool :=
  if op.body.deps.isEmpty then .ok false
  else do
    let clock ← observedClockProjected r o op.body.topicId op.body.deps.toList
    let keys := state.membershipControls.toList.map (·.2.1) ++
      (state.replicationPolicyControl.map (·.1)).toList
    return keys.all fun key => decide (key.actorSeq ≤ clock.get key.actorId)

/-- Whether the author was a member at the op's dependencies, and the projections kept. -/
def authorIsMember (heads : BTreeSet OpId) (state : TopicState) (projections : Projections) (op : Op) :
    Result (Bool × Projections) := do
  let covered ← if op.body.deps = heads then .ok true else coversControls r o op state
  if covered then return (decide (op.body.author ∈ state.members), projections)
  let (projected, projections) ← projectMembership E n r o op.body.topicId op.body.deps projections
  return (decide (op.body.author ∈ projected.members), projections)

/-- The payload part of `validate_op_projected`. -/
def validatePayload (heads : BTreeSet OpId) (state : Option TopicState) (projections : Projections)
    (op : Op) : Result Projections :=
  let memberAt (state : TopicState) : Result Projections := do
    let (isMember, projections) ← authorIsMember E n r o heads state projections op
    refuseIf (isMember = false) .notTopicMember
    return projections
  match op.body.payload, state with
  | .genesis genesis, _ => do
    refuseIf (op.body.actorSeq ≠ 1 ∨ op.body.actorPrev.isSome ∨ op.body.deps ≠ ∅ ∨
      genesis.eventTypeId.utf8ByteSize > maxTypeBytes ∨ state.isSome) .invalidGenesis
    return projections
  | _, none => .error .topicNotFound
  | .event envelope, some state => do
    ensureEventType state.eventTypeId envelope.typeId
    memberAt state
  | .control _, some state => memberAt state

/-- `validate_op_projected`. -/
def validateOpProjected (reset : Bool) (heads : BTreeSet OpId) (state : Option TopicState)
    (projections : Projections) (op : Op) : Result (OpAdmission × Projections) := do
  let body := op.body
  refuseIf (body.actorId ≠ E.actorIdFor body.topicId body.author) .actorAuthorMismatch
  refuseIf (body.actorPrev.any (· ∉ body.deps)) .actorPrevMismatch
  let existing := slotHolder r o body reset
  refuseIf (existing.any (· ≠ op.id)) .actorFork
  if existing.isSome && r.depResolvable op.id then return (.duplicate, projections)
  let projections ← validatePayload E n r o heads state projections op
  let (expectedSeq, expectedPrev) ← nextActorPosition (tipProjected r o body reset)
  if body.actorSeq ≠ expectedSeq then
    if decide (body.actorSeq < expectedSeq) && r.depResolvable op.id then
      return (.duplicate, projections)
    throw (.actorSeqGap expectedSeq body.actorSeq)
  refuseIf (body.actorPrev ≠ expectedPrev) .actorPrevMismatch
  let generation ← generationProjected r o body.deps.toList
  refuseIf (body.generation ≠ generation) (.generationMismatch generation body.generation)
  return (.admitted, projections)

/-- The membership part of `validate_repair`. -/
def repairPayload (state : Option TopicState) (projections : Projections) (op : Op) : Result Projections :=
  let memberAt : Result Projections := do
    let (projected, projections) ← projectMembership E n r o op.body.topicId op.body.deps projections
    refuseIf (op.body.author ∉ projected.members) .notTopicMember
    return projections
  match op.body.payload, state with
  | .genesis genesis, _ => do
    refuseIf (isStructuralGenesis op = false ∨ genesis.eventTypeId.utf8ByteSize > maxTypeBytes ∨
      state.any (·.genesis ≠ op.id)) .invalidGenesis
    return projections
  | _, none => .error .topicNotFound
  | .event envelope, some state => do
    ensureEventType state.eventTypeId envelope.typeId
    memberAt
  | .control _, some _ => memberAt

/-- The dependency part of `validate_repair`: their topic, and the generation they give. -/
def repairGeneration (t : TopicId) (deps : List OpId) : Result ℕ :=
  deps.foldlM (fun generation dep => do
    let m ← metaProjected r o dep
    refuseIf (m.topicId ≠ t) .topicMismatch
    return max generation (← checkedNext m.generation)) 0

/-- `validate_repair`: refill an id the chain accounts for. -/
def validateRepair (state : Option TopicState) (projections : Projections) (op : Op) :
    Result (OpMeta × Projections) := do
  let body := op.body
  refuseIf (body.actorId ≠ E.actorIdFor body.topicId body.author) .actorAuthorMismatch
  refuseIf (r.actorBySeq[(body.topicId, body.actorId, body.actorSeq)]?.any (· ≠ op.id)) .actorFork
  let projections ← repairPayload E n r o state projections op
  match body.actorPrev with
  | none => refuseIf (body.actorSeq ≠ 1) .actorPrevMismatch
  | some prev =>
    refuseIf (body.actorSeq < 2 ∨ prev ∉ body.deps) .actorPrevMismatch
    let m ← metaProjected r o prev
    refuseIf (m.topicId ≠ body.topicId ∨ m.actorId ≠ body.actorId) .actorPrevMismatch
    let next ← checkedNext m.actorSeq
    refuseIf (next ≠ body.actorSeq) .actorPrevMismatch
  let generation ← repairGeneration r o body.topicId body.deps.toList
  refuseIf (body.generation ≠ generation) (.generationMismatch generation body.generation)
  let m ← metaForProjected r o op
  refuseIf (r.metas[op.id]?.any (· ≠ m)) .invalidOpId
  return (m, projections)

/-- The payload part of `validate_pending_op`. -/
def pendingPayload (state : Option TopicState) (op : Op) : Result Unit :=
  match op.body.payload with
  | .genesis _ => refuseIf (op.body.actorSeq ≠ 1 ∨ op.body.actorPrev.isSome ∨ op.body.deps ≠ ∅ ∨
      state.isSome) .invalidGenesis
  | .event envelope => do
    refuseIf (op.body.deps = ∅ ∨ op.body.generation = 0) .invalidOpId
    match state with
    | some state => ensureEventType state.eventTypeId envelope.typeId
    | none => return ()
  | .control _ => refuseIf (op.body.deps = ∅ ∨ op.body.generation = 0) .invalidOpId

/-- The predecessor part of `validate_pending_op`. -/
def pendingPrev (missing : BTreeSet OpId) (body : OpBody) : Result Unit :=
  match body.actorPrev with
  | none => refuseIf (2 ≤ body.actorSeq) .actorPrevMismatch
  | some prev => do
    refuseIf (body.actorSeq = 1) .actorPrevMismatch
    refuseIf (prev ∉ body.deps) .actorPrevMismatch
    if prev ∈ missing then return ()
    let m ← metaProjected r o prev
    refuseIf (m.topicId ≠ body.topicId ∨ m.actorId ≠ body.actorId) .actorPrevMismatch
    let next ← checkedNext m.actorSeq
    refuseIf (next ≠ body.actorSeq) (.actorSeqGap next body.actorSeq)

/-- The dependencies a buffered op does have lie in its topic and below its generation. -/
def pendingDeps (missing : BTreeSet OpId) (body : OpBody) : Result Unit :=
  body.deps.toList.forM fun dep => do
    if dep ∈ missing then return ()
    let m ← metaProjected r o dep
    refuseIf (m.topicId ≠ body.topicId) .topicMismatch
    if m.generation ≥ body.generation then
      throw (.generationMismatch (← checkedNext m.generation) body.generation)

/-- `validate_pending_op`. -/
def validatePendingOp (reset : Bool) (missing : BTreeSet OpId) (state : Option TopicState) (op : Op) :
    Result OpAdmission := do
  let body := op.body
  refuseIf (missing.size > maxPendingMissingDeps) (.storage "pending op has too many missing deps")
  refuseIf (body.actorId ≠ E.actorIdFor body.topicId body.author) .actorAuthorMismatch
  refuseIf (body.actorSeq = 0) (.actorSeqGap 1 0)
  let existing := slotHolder r o body reset
  refuseIf (existing.any (· ≠ op.id)) .actorFork
  if existing.isSome && r.depResolvable op.id then return .duplicate
  pendingPayload state op
  pendingPrev r o missing body
  match tipProjected r o body reset with
  | some (tipSeq, tipId) =>
    let next ← checkedNext tipSeq
    if body.actorSeq ≤ tipSeq then
      if r.depResolvable op.id then return .duplicate
      throw (.actorSeqGap next body.actorSeq)
    refuseIf (body.actorPrev = some tipId ∧ body.actorSeq ≠ next) (.actorSeqGap next body.actorSeq)
  | none => pure ()
  pendingDeps r o missing body
  return .admitted

/-- `pending_meta_for`. -/
def pendingMetaFor (op : Op) (missing : BTreeSet OpId) : OpMeta :=
  { metaOf op ∅ with ready := false, missingDeps := missing }

end Checks

/-! ## What happens to a buffered op that failed -/

/-- `PendingVerdict`. -/
inductive PendingVerdict
  | reject | retain
deriving DecidableEq

/-- `is_permanent_rejection`. -/
def isPermanentRejection : Error → Bool
  | .opTooLarge | .invalidSignature | .invalidPublicKey | .wrongSigner | .actorAuthorMismatch
  | .topicMismatch | .generationMismatch _ _ | .rejectedOp _ => true
  | _ => false

/-- `slot_taken`: another admitted op holds `seq` of the op's actor. -/
def slotTaken (r : Records) (op : Op) (seq : ℕ) : Option OpId :=
  match r.actorBySeq[(op.body.topicId, op.body.actorId, seq)]? with
  | some holder => if holder ≠ op.id ∧ r.depResolvable holder = true then some holder else none
  | none => none

/-- `position_impossible`. -/
def positionImpossible (r : Records) (op : Op) : Result Bool := do
  let body := op.body
  match body.actorPrev with
  | none => return decide (body.actorSeq ≠ 1)
  | some prev =>
    if body.actorSeq < 2 ∨ prev ∉ body.deps then return true
    match r.metas[prev]? with
    | some m =>
      if r.depResolvable prev then
        if m.topicId ≠ body.topicId ∨ m.actorId ≠ body.actorId then return true
        if (← checkedNext m.actorSeq) ≠ body.actorSeq then return true
    | none => pure ()
    return (slotTaken r op (body.actorSeq - 1)).any (· ≠ prev)

/-- `pending_verdict`. -/
def pendingVerdict (r : Records) (op : Op) (error : Error) : Result PendingVerdict := do
  let immutable ←
    if isPermanentRejection error then .ok true
    else match error with
      | .notTopicMember | .eventTypeMismatch _ _ | .invalidGenesis | .invalidOpId => .ok true
      | .actorPrevMismatch | .actorSeqGap _ _ => positionImpossible r op
      | .actorFork => .ok (slotTaken r op op.body.actorSeq).isSome
      | _ => .ok false
  return if immutable then .reject else .retain

end Irokle
