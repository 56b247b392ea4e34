import Irokle.Spec.Admission

/-!
# Local creation

A local write signs the next op of its actor on the current heads and commits it in one storage
write (`src/oplog/creation.rs`). Unlike received ops, a local op is checked against the store alone;
its author's membership is read from the current state when the op depends on exactly the heads, and
otherwise from the fold over its whole ancestry.
-/

namespace Irokle

open Std

/-- `MAX_TOPIC_ACTORS`. -/
def maxTopicActors : ℕ := 90000

/-- `Signer`: the peer it signs for, and its signature of a body. -/
structure Signer where
  peerId : PeerId
  sign : OpBody → Result Signature

/-- `Op::sign`. -/
def Op.sign (E : Env) (body : OpBody) (signer : Signer) : Result Op := do
  refuseIf (body.author ≠ signer.peerId) .wrongSigner
  let signature ← signer.sign body
  return ⟨E.deriveId ⟨body, signature⟩, ⟨body, signature⟩⟩

/-- What a local op commits beside itself. -/
abbrev LocalEffects := Op → OpMeta → TopicState → Result AdmissionEffects

/-- `heads_after`. -/
def headsAfter (current : BTreeSet OpId) (op : Op) : BTreeSet OpId := (current \ op.body.deps).insert op.id

/-- `topic_state_after`. -/
def topicStateAfter (op : Op) (heads : BTreeSet OpId) (base : Option TopicState) : Result (Option TopicState) :=
  match op.body.payload, base with
  | .genesis genesis, _ => .ok (some { genesisState op genesis with heads := heads })
  | .event _, _ => .ok none
  | .control control, some state => .ok (some (applyControl { state with heads := heads } op control))
  | .control _, none => .error .topicNotFound

section Local

variable (E : Env) (r : Records)

/-- Sign a body, unless the op signed before has it. -/
def signOrReuse (body : OpBody) (signer : Signer) (previous : Option Op) : Result Op :=
  match previous.filter fun op => decide (op.body = body) with
  | some op => .ok op
  | none => do
    let op ← Op.sign E body signer
    E.validate op
    return op

/-- The position a local op takes. -/
def localPosition (t : TopicId) (a : ActorId) : Result (ℕ × Option OpId) :=
  match r.actorTip[(t, a)]? with
  | some (seq, id) =>
    match checkedSucc seq with
    | some next => .ok (next, some id)
    | none => .error (.storage "actor sequence overflow")
  | none => .ok (1, none)

/-- `next_local_op`. -/
def nextLocalOp (t : TopicId) (a : ActorId) (deps : BTreeSet OpId) (payload : TopicPayload) (signer : Signer)
    (previous : Option Op) : Result Op := do
  let (actorSeq, actorPrev) ← localPosition r t a
  let deps := match actorPrev with
    | some prev => deps.insert prev
    | none => deps
  let generation ← if deps.isEmpty then .ok 0 else checkedNext (r.maxGenerationOf t)
  signOrReuse E
    { topicId := t, author := signer.peerId, actorId := a, actorSeq, actorPrev, deps, generation, payload }
    signer previous

/-- The loop of `state_for_deps`; the walk is a stack with its top first. -/
def reachableWalk (t : TopicId) : ℕ → List OpId → BTreeMap OpId Op → Result (BTreeMap OpId Op)
  | 0, _, _ => .error (.storage "dependency walk exceeds the stored edges")
  | _ + 1, [], reachable => .ok reachable
  | fuel + 1, id :: stack, reachable =>
    if reachable.contains id then reachableWalk t fuel stack reachable
    else
      match r.ops[id]? with
      | none => .error (.missingDependency id)
      | some op =>
        if op.body.topicId ≠ t then .error .topicMismatch
        else reachableWalk t fuel (op.body.deps.toList.reverse ++ stack) (reachable.insert id op)

/-- `state_for_deps`. Every id enters the walk over a stored edge, so the edges bound it. -/
def stateForDeps (t : TopicId) (deps : BTreeSet OpId) : Result TopicState := do
  let fuel := deps.size + (r.ops.toList.map (·.2.body.deps.size)).sum + 1
  let reachable ← reachableWalk r t fuel deps.toList.reverse ∅
  materializeTopicState (reachable.toList.map (·.2)) ∅

/-- Whether the author was a member at the dependencies of a local op. -/
def localMember (state : TopicState) (body : OpBody) : Result Unit := do
  let members ← if body.deps = state.heads then .ok state.members
    else (stateForDeps r body.topicId body.deps).map (·.members)
  refuseIf (body.author ∉ members) .notTopicMember

/-- The payload part of `validate_op`. -/
def localPayload (body : OpBody) : Result Unit :=
  match body.payload with
  | .genesis _ => refuseIf (body.actorSeq ≠ 1 ∨ body.actorPrev.isSome ∨ body.deps ≠ ∅ ∨
      (r.topicState body.topicId).isSome) .invalidGenesis
  | .event envelope =>
    match r.topicState body.topicId with
    | none => .error .topicNotFound
    | some current => do
      ensureEventType current.eventTypeId envelope.typeId
      localMember r current body
  | .control _ =>
    match r.topicState body.topicId with
    | none => .error .topicNotFound
    | some current => localMember r current body

/-- A genesis of a known topic, or with an oversized type id, is refused first. -/
def genesisRefused (body : OpBody) : Bool :=
  match body.payload with
  | .genesis genesis =>
      decide (genesis.eventTypeId.utf8ByteSize > maxTypeBytes) || (r.topicState body.topicId).isSome
  | _ => false

/-- `validate_op` of a local op. -/
def validateLocalOp (op : Op) : Result Unit := do
  let body := op.body
  refuseIf (body.actorId ≠ E.actorIdFor body.topicId body.author) .actorAuthorMismatch
  refuseIf (genesisRefused r body = true) .invalidGenesis
  refuseIf (r.actorBySeq[(body.topicId, body.actorId, body.actorSeq)]?.any (· ≠ op.id)) .actorFork
  let (expectedSeq, expectedPrev) ← nextActorPosition r.actorTip[(body.topicId, body.actorId)]?
  refuseIf (body.actorSeq ≠ expectedSeq) (.actorSeqGap expectedSeq body.actorSeq)
  refuseIf (body.actorPrev ≠ expectedPrev) .actorPrevMismatch
  refuseIf (body.actorPrev.any (· ∉ body.deps)) .actorPrevMismatch
  body.deps.toList.forM fun dep => refuseIf (r.ops.contains dep = false) (.missingDependency dep)
  localPayload r body
  let generation ← generationProjected r {} body.deps.toList
  refuseIf (body.generation ≠ generation) (.generationMismatch generation body.generation)

/-- `meta_for`: the clock of the dependencies as the store holds them. -/
def metaFor (op : Op) : Result OpMeta := metaForProjected r {} op

/-- The checks and the batch of a signed local op, up to its commit. -/
def localBatch (effects : LocalEffects) (expectedHeads : BTreeSet OpId) (expectedState : Option TopicState)
    (op : Op) : Result (OpMeta × AdmittedBatch) := do
  E.validateFrame op
  validateLocalOp E r op
  let m ← metaFor r op
  let heads := headsAfter expectedHeads op
  let state ← topicStateAfter op heads expectedState
  match state.or expectedState with
  | none => throw .topicNotFound
  | some effective =>
    let effects ← effects op m effective
    return (m, {
      topicId := op.body.topicId
      expectedHeads := expectedHeads
      expectedTopicState := expectedState
      entries := [(op, m)]
      heads := heads
      topicState := state
      effects := effects })

/-- `ensure_member`, and the bound on the actors of a topic. -/
def checkWriter (t : TopicId) (a : ActorId) (payload : TopicPayload) (peer : PeerId) : Result Unit :=
  match payload with
  | .genesis _ => .ok ()
  | _ =>
    match r.topicState t with
    | none => .error .topicNotFound
    | some state => do
      refuseIf (peer ∉ state.members) .notTopicMember
      refuseIf (r.actorTip[(t, a)]?.isNone ∧ (r.clockOf t).size ≥ maxTopicActors) .topicFull

/-- The overlay of a genesis that is not stored yet. -/
def genesisOverlay (op : Op) (m : OpMeta) : Overlay where
  ops := (∅ : BTreeMap OpId Op).insert op.id op
  metas := (∅ : BTreeMap OpId OpMeta).insert op.id m
  tips := (∅ : BTreeMap (TopicId × ActorId) (ℕ × OpId)).insert (op.body.topicId, op.body.actorId)
    (m.actorSeq, op.id)
  index := (∅ : BTreeMap (TopicId × ActorId × ℕ) OpId).insert (op.body.topicId, op.body.actorId, m.actorSeq) op.id

/-- The checks of `admit_genesis_pair` and its batch, up to the commit. -/
def genesisPairBatch (n : ℕ) (effects : LocalEffects) (expectedHeads : BTreeSet OpId)
    (expectedState : Option TopicState) (genesis : Op) (genesisMeta : OpMeta) (event : Op) :
    Result (OpMeta × AdmittedBatch) := do
  E.validateFrame genesis
  validateLocalOp E r genesis
  E.validateFrame event
  let genesisHeads := headsAfter expectedHeads genesis
  match ← topicStateAfter genesis genesisHeads expectedState with
  | none => throw .topicNotFound
  | some state =>
    let overlay := genesisOverlay genesis genesisMeta
    let (admission, _) ← validateOpProjected E n r overlay false genesisHeads (some state) ∅ event
    refuseIf (admission = .duplicate) .admissionConflict
    let eventMeta ← metaForProjected r overlay event
    let first ← effects genesis genesisMeta state
    let heads := headsAfter genesisHeads event
    let state := { state with heads := heads }
    let second ← effects event eventMeta state
    return (eventMeta, {
      topicId := genesis.body.topicId
      expectedHeads := expectedHeads
      expectedTopicState := expectedState
      entries := [(genesis, genesisMeta), (event, eventMeta)]
      heads := heads
      topicState := some state
      effects := ⟨first.syncObligations ++ second.syncObligations⟩ })

end Local

/-- The content of a local genesis always names its author. -/
def TopicGenesis.withPeer (genesis : TopicGenesis) (peer : PeerId) : TopicGenesis :=
  { genesis with initialPeers := genesis.initialPeers.insert peer }

namespace Oplog

variable (E : Env) (V : View)

/-- `try_local_effects`: the result, the op signed when the attempt failed after signing, the log. -/
def tryLocal (t : TopicId) (a : ActorId) (payload : TopicPayload) (signer : Signer) (effects : LocalEffects)
    (signed : Option Op) (log : Oplog) : Result (Op × OpMeta) × Option Op × Oplog :=
  let r := log.inner.toRecords
  match checkWriter r t a payload signer.peerId with
  | .error e => (.error e, signed, log)
  | .ok () =>
    match nextLocalOp E r t a (r.headsOf t) payload signer signed with
    | .error e => (.error e, none, log)
    | .ok op =>
      match localBatch E r effects (r.headsOf t) (r.topicState t) op with
      | .error e => (.error e, some op, log)
      | .ok (m, batch) =>
        match log.putAdmittedBatch E V batch with
        | (.error e, log) => (.error e, some op, log)
        | (.ok (), log) => (.ok (op, m), none, log)

/-- `try_genesis_effects`. -/
def tryGenesis (t : TopicId) (a : ActorId) (genesis : TopicGenesis) (event : EventEnvelope) (signer : Signer)
    (effects : LocalEffects) (signed : Option (Op × Op)) (log : Oplog) :
    Result ((Op × OpMeta) × Op × OpMeta) × Option (Op × Op) × Oplog :=
  let r := log.inner.toRecords
  let prepared : Result (Op × OpMeta × Op) := do
    let genesisOp ← nextLocalOp E r t a (r.headsOf t) (.genesis genesis) signer (signed.map (·.1))
    let genesisMeta ← metaFor r genesisOp
    let eventOp ← signOrReuse E
      { topicId := t, author := signer.peerId, actorId := a
        actorSeq := ← checkedNext genesisMeta.actorSeq, actorPrev := some genesisOp.id
        deps := {genesisOp.id}, generation := ← checkedNext genesisMeta.generation, payload := .event event }
      signer (signed.map (·.2))
    return (genesisOp, genesisMeta, eventOp)
  match prepared with
  | .error e => (.error e, none, log)
  | .ok (genesisOp, genesisMeta, eventOp) =>
    match genesisPairBatch E r log.writes effects (r.headsOf t)
      (r.topicState t) genesisOp genesisMeta eventOp with
    | .error e => (.error e, some (genesisOp, eventOp), log)
    | .ok (eventMeta, batch) =>
      match log.putAdmittedBatch E V batch with
      | (.error e, log) => (.error e, some (genesisOp, eventOp), log)
      | (.ok (), log) => (.ok ((genesisOp, genesisMeta), eventOp, eventMeta), none, log)

/-- Repeat an attempt that lost a race, with what it signed. -/
def retryCreation {α σ : Type} (attempt : Option σ → Oplog → Result α × Option σ × Oplog) :
    ℕ → Option σ → Oplog → Result α × Oplog
  | 0, _, log => (.error .admissionConflict, log)
  | attempts + 1, signed, log =>
    match attempt signed log with
    | (.ok res, _, log) => (.ok res, log)
    | (.error e, signed, log) =>
      if isAdmissionRace e then retryCreation attempt attempts signed log else (.error e, log)

/-- Waiting for the topic's turn, then the attempts. -/
def create {α σ : Type} (log : Oplog) (attempt : Option σ → Oplog → Result α × Option σ × Oplog) :
    Result α × Oplog :=
  let ticked := { log with writes := log.writes + 1 }
  match E.reserve log.writes 0 with
  | .error e => (.error e, ticked)
  | .ok () => retryCreation attempt maxAdmissionRetries none ticked

/-- `create_local_effects`. -/
def createLocal (log : Oplog) (t : TopicId) (a : ActorId) (payload : TopicPayload) (signer : Signer)
    (effects : LocalEffects) : Result (Op × OpMeta) × Oplog :=
  log.create E (tryLocal E V t a payload signer effects)

/-- `create_genesis_effects`. -/
def createGenesisWithEvent (log : Oplog) (t : TopicId) (a : ActorId) (genesis : TopicGenesis)
    (event : EventEnvelope) (signer : Signer) (effects : LocalEffects) :
    Result ((Op × OpMeta) × Op × OpMeta) × Oplog :=
  log.create E (tryGenesis E V t a (genesis.withPeer signer.peerId) event signer effects)

end Oplog

end Irokle
