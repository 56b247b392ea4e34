import Irokle.Spec.Build

/-!
# Admission

A received batch is built, committed in one storage write and its unresolved ops buffered
(`src/oplog/admission.rs`). Conflicts are retried; then the ready buffered ops are drained in
slices, each as a batch of its own, until a pass over the ready index admits nothing more.
-/

namespace Irokle

open Std

/-- `MAX_ADMISSION_RETRIES`. -/
def maxAdmissionRetries : ℕ := 64
/-- `MAX_CACHED_PROJECTIONS`. -/
def maxCachedProjections : ℕ := 4096
/-- `MAX_DRAIN_OPS`. -/
def maxDrainOps : ℕ := 4096
/-- `READY_SLICE`. -/
def readySlice : ℕ := 256

/-- An oplog over one store. `writes` counts the storage writes attempted, which is what `Env`
schedules faults by, `revision` those that touched the records, and `debug` keeps the errors the
code logs instead of returning. -/
structure Oplog where
  inner : MemoryInner := {}
  cache : MembershipCache := {}
  writes : ℕ := 0
  revision : ℕ := 0
  debug : List (OpId × Error) := []

/-- `admission_failure`: an error after a commit carries what was committed. -/
def admissionFailure (admitted : Admitted) (error : Error) : Error :=
  let (admitted, source) := match error with
    | .admissionCommitted partialAdmitted source =>
      ({ admitted with
          accepted := admitted.accepted ∪ partialAdmitted.accepted
          evictions := admitted.evictions ++ partialAdmitted.evictions }, source)
    | error => (admitted, error)
  if admitted.accepted.isEmpty && admitted.evictions.isEmpty then source
  else .admissionCommitted admitted source

/-- `is_admission_race`. -/
def isAdmissionRace : Error → Bool
  | .admissionConflict | .actorSeqGap _ _ | .actorPrevMismatch | .actorFork | .invalidOpId
  | .generationMismatch _ _ => true
  | _ => false

namespace Oplog

variable (E : Env) (V : View)

/-- `put_admitted_batch` through the handle's store. -/
def putAdmittedBatch (log : Oplog) (b : AdmittedBatch) : Result Unit × Oplog :=
  let (result, inner) := admitBatchLocked E (E.reserve log.writes) V.quota log.inner b
  (result, { log with inner := inner, writes := log.writes + 1, revision := log.revision + 1 })

/-- `reset_topic_and_admit` through the handle's store. A namespace holds one branch. -/
def resetTopicAndAdmit (log : Oplog) (t : TopicId) (plan : ResetPlan) (b : AdmittedBatch) :
    Result Unit × Oplog :=
  let ticked := { log with writes := log.writes + 1 }
  if V.quota.isSome then (.error .staleIncarnation, ticked)
  else
    match Irokle.resetTopicAndAdmit E (E.reserve log.writes) log.inner t plan.expectedState b
        (some plan.eviction) with
    | .error e => (.error e, ticked)
    | .ok (_, inner) => (.ok (), { ticked with inner := inner, revision := log.revision + 1 })

/-- The log after a write to the pending buffer. -/
def withPending (log : Oplog) (pending : PendingIndex) : Oplog :=
  { log with
    inner := { log.inner with toPendingIndex := pending }
    writes := log.writes + 1
    revision := if pending = log.inner.toPendingIndex then log.revision else log.revision + 1 }

/-- `put_pending_bound` through the handle's store. -/
def putPending (log : Oplog) (source : PeerId) (op : Op) (missing : BTreeSet OpId) (genesis : Option OpId) :
    Result Unit × Oplog :=
  match putPendingBound E (E.reserve log.writes) V.quota log.inner source op (pendingMetaFor op missing)
      genesis with
  | .error e => (.error e, log.withPending log.inner.toPendingIndex)
  | .ok pending => (.ok (), log.withPending pending)

/-- `purge_pending_waiters` through the handle's store. -/
def purgePendingWaiters (log : Oplog) (dep : OpId) : Result Unit × Oplog :=
  let (result, pending) := log.inner.purgePendingWaiters dep
  (result.map fun _ => (), log.withPending pending)

/-- `reject_pending_subtree` through the handle's store. -/
def rejectPendingSubtree (log : Oplog) (id : OpId) : Result Unit × Oplog :=
  let (result, pending) := log.inner.rejectPendingSubtree (E.reserve log.writes 0) id
  (result.map fun _ => (), log.withPending pending)

/-! ## One batch -/

/-- The storage write of a built batch, and the cache a committed reset leaves. -/
def commitBuilt (log : Oplog) (built : BuiltBatch) (plan : Option ResetPlan) : Result Unit × Oplog :=
  match plan with
  | some plan =>
    match log.resetTopicAndAdmit E V built.batch.topicId plan built.batch with
    | (.error e, log) => (.error e, log)
    | (.ok (), log) => (.ok (), { log with cache := log.cache.cleared })
  | none => if built.batch.entries.isEmpty then (.ok (), log) else log.putAdmittedBatch E V built.batch

/-- Buffer the ops of a batch that miss dependencies. One behind a rejected op is dropped. -/
def bufferPending (source : Option PeerId) (t : TopicId) (committed : Admitted) (log : Oplog) :
    List (Op × BTreeSet OpId) → Result Unit × Oplog
  | [] => (.ok (), log)
  | (op, missing) :: rest =>
    match log.putPending E V (source.getD op.body.author) op missing (V.boundGenesis t) with
    | (.ok (), log) => bufferPending source t committed log rest
    | (.error (.rejectedOp id), log) =>
      bufferPending source t committed { log with debug := log.debug ++ [(op.id, .rejectedOp id)] } rest
    | (.error e, log) => (.error (admissionFailure committed e), log)

/-- Drop the oldest projections until one of `need` bytes fits. -/
def makeRoom (need : ℕ) : List OpId → Projections → List OpId × Projections
  | [], states => ([], states)
  | oldest :: order, states =>
    if states.size ≥ maxCachedProjections ∨ projectionBytes states + need > maxProjectionBytes then
      makeRoom need order (states.erase oldest)
    else (oldest :: order, states)

/-- Keep the projection at `id` for later calls. -/
def cacheProjection (projections : Projections) (cache : MembershipCache) (id : OpId) : MembershipCache :=
  match projections[id]? with
  | some state =>
    if cache.states.contains id = false ∧ stateBytes state ≤ maxProjectionBytes then
      let room := makeRoom (stateBytes state) cache.order cache.states
      { cache with states := room.2.insert id state, order := room.1 ++ [id] }
    else cache
  | none => cache

/-- Keep the projections at the dependencies of the last admitted op, unless the cache was
cleared since the batch was built. -/
def cacheProjections (log : Oplog) (built : BuiltBatch) : Oplog :=
  if built.projectionEpoch = log.cache.epoch then
    { log with cache := built.projectionTips.toList.foldl (cacheProjection built.projections) log.cache }
  else log

/-- `admit_ops_batch`. -/
def admitOpsBatch (log : Oplog) (source : Option PeerId) (ops : List Op) (verified : BTreeSet OpId)
    (plan : Option ResetPlan) (effects : Option ReceiveEffects) : Result (BTreeSet OpId) × Oplog :=
  let log := if plan.isSome then { log with cache := log.cache.cleared } else log
  match buildBatch E V log.writes log.inner.toRecords log.cache source ops verified plan.isSome effects with
  | .error e => (.error e, log)
  | .ok none => (.ok ∅, log)
  | .ok (some built) =>
    match log.commitBuilt E V built plan with
    | (.error e, log) => (.error e, log)
    | (.ok (), log) =>
      let committed : Admitted :=
        ⟨built.accepted, (plan.map (·.eviction)).toList, false⟩
      match bufferPending E V source built.batch.topicId committed log built.pending with
      | (.error e, log) => (.error e, log)
      | (.ok (), log) => (.ok built.accepted, log.cacheProjections built)

/-! ## Retries -/

/-- A handle bound to a branch refuses another structural genesis of the topic. -/
def staleGenesis (ops : List Op) : Bool :=
  match V.receiveGenesis with
  | some (topic, genesis) =>
    ops.any fun op => op.body.topicId == topic && isStructuralGenesis op && op.id != genesis
  | none => false

/-- A handle bound to a branch refuses a batch once the topic is on a smaller one. -/
def behindBranch (r : Records) (ops : List Op) : Bool :=
  match V.receiveGenesis, ops.head? with
  | some (topic, genesis), some first =>
    first.body.topicId == topic && (r.topicState topic).any fun state => decide (state.genesis < genesis)
  | _, _ => false

/-- The genesis collision of one attempt, without the waiters of a refused genesis. -/
def resolveAttempt (log : Oplog) (ops : List Op) (verified : BTreeSet OpId) :
    Result (List Op × Option ResetPlan) × Oplog :=
  if ops.any isStructuralGenesis then
    match resolveGenesisCollision E log.inner.toRecords ops verified with
    | .error e => (.error e, log)
    | .ok (ops, plan, none) => (.ok (ops, plan), log)
    | .ok (ops, plan, some losing) =>
      match log.purgePendingWaiters losing with
      | (.error e, log) => (.error e, log)
      | (.ok (), log) => (.ok (ops, plan), log)
  else (.ok (ops, none), log)

/-- The attempts of `admit_with_retry`. -/
def admitAttempts (source : Option PeerId) (ops : List Op) (verified : BTreeSet OpId)
    (effects : Option ReceiveEffects) :
    ℕ → Oplog → Result (BTreeSet OpId × Option TopicEviction) × Oplog
  | 0, log => (.error .admissionConflict, log)
  | attempts + 1, log =>
    -- waiting for the topic's turn can fail like a write that lost its race
    let turn := if ops.isEmpty then .ok () else E.reserve log.writes 0
    let log := { log with writes := log.writes + 1 }
    match turn with
    | .error e => (.error e, log)
    | .ok () =>
      if behindBranch V log.inner.toRecords ops then (.error .staleIncarnation, log)
      else
        let heads (log : Oplog) := ops.head?.map fun op => log.inner.headsOf op.body.topicId
        let before := heads log
        match resolveAttempt E log ops verified with
        | (.error e, log) => (.error e, log)
        | (.ok (toAdmit, plan), log) =>
          match log.admitOpsBatch E V source toAdmit verified plan effects with
          | (.ok accepted, log) => (.ok (accepted, plan.map (·.eviction)), log)
          | (.error .admissionConflict, log) => admitAttempts source ops verified effects attempts log
          | (.error e, log) =>
            if isAdmissionRace e && heads log != before then
              admitAttempts source ops verified effects attempts log
            else (.error e, log)

/-- `admit_with_retry`. -/
def admitWithRetry (log : Oplog) (source : Option PeerId) (ops : List Op) (verified : BTreeSet OpId)
    (effects : Option ReceiveEffects) : Result (BTreeSet OpId × Option TopicEviction) × Oplog :=
  if staleGenesis V ops then (.error .staleIncarnation, log)
  else
    let checked : Result Unit := ops.forM fun op =>
      if op.id ∈ verified then .ok () else do
        E.validateFrame op
        E.validate op
    match checked with
    | .error e => (.error e, log)
    | .ok () =>
      admitAttempts E V source ops (ExtTreeSet.ofList (ops.map (·.id)) compare) effects
        maxAdmissionRetries log

end Oplog

end Irokle
