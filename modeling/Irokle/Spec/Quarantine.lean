import Irokle.Spec.Creation

/-!
# Quarantine

Ops of a topic that no head reaches are discarded and the rest is admitted again from the genesis in
one storage write (`src/oplog/mod.rs`). A frontier with a hole defers it.
-/

namespace Irokle

open Std

section Orphans

variable (r : Records)

/-- The loop of `topic_orphans`; the frontier is a stack with its top first. -/
def headWalk : ℕ → List OpId → BTreeSet OpId → BTreeSet OpId
  | 0, _, reachable => reachable
  | _ + 1, [], reachable => reachable
  | fuel + 1, id :: frontier, reachable =>
    if id ∈ reachable then headWalk fuel frontier reachable
    else
      let deps := match r.metas[id]? with
        | some m => m.deps.toList.reverse
        | none => []
      headWalk fuel (deps ++ frontier) (reachable.insert id)

/-- The ids the heads of a topic reach. Every id enters over a stored edge, so the edges bound it. -/
def reachedFromHeads (t : TopicId) : BTreeSet OpId :=
  let fuel := (r.headsOf t).size + (r.metas.toList.map (·.2.deps.size)).sum + 1
  headWalk r fuel (r.headsOf t).toList.reverse ∅

/-- `topic_orphans`. -/
def topicOrphans (t : TopicId) : BTreeSet OpId := r.listOpIds t \ reachedFromHeads r t

/-- `QuarantinePlan`. -/
structure QuarantinePlan where
  state : TopicState
  survivors : List Op
  evicted : List EvictedOp

/-- `plan_quarantine`. -/
def planQuarantine (t : TopicId) : Option QuarantinePlan :=
  match r.topicState t with
  | none => none
  | some state =>
    let orphans := topicOrphans r t
    if orphans.isEmpty then none
    else
      let kept := (r.listOpIds t).toList.filter fun id => decide (id ∉ orphans)
      if kept.any fun id => !r.depResolvable id then none
      else
        let survivors := kept.filterMap fun id => r.ops[id]?
        if survivors.any fun op => op.id = state.genesis then
          some ⟨state, survivors, evictedOps r orphans⟩
        else none

end Orphans

namespace Oplog

variable (E : Env) (V : View)

/-- The attempts of `quarantine_orphans`. -/
def quarantineAttempts (t : TopicId) : ℕ → BTreeSet OpId → Oplog → Result (Option TopicEviction) × Oplog
  | 0, _, log => (.error .admissionConflict, log)
  | attempts + 1, checked, log =>
    match planQuarantine log.inner.toRecords t with
    | none => (.ok none, log)
    | some plan =>
      let valid : Result Unit := plan.survivors.forM fun op => if op.id ∈ checked then .ok () else E.validate op
      match valid with
      | .error e => (.error e, log)
      | .ok () =>
        let checked := plan.survivors.foldl (fun c op => c.insert op.id) checked
        let eviction : TopicEviction := ⟨t, plan.state.genesis, plan.state.genesis, plan.evicted⟩
        match log.admitOpsBatch E V none plan.survivors checked (some ⟨plan.state, eviction⟩) none with
        | (.error .admissionConflict, log) => quarantineAttempts t attempts checked log
        | (.error e, log) => (.error e, log)
        | (.ok _, log) => (.ok (some eviction), log)

/-- `quarantine_orphans`. -/
def quarantineOrphans (log : Oplog) (t : TopicId) : Result (Option TopicEviction) × Oplog :=
  if (topicOrphans log.inner.toRecords t).isEmpty then (.ok none, log)
  else quarantineAttempts E V t maxAdmissionRetries ∅ log

/-- `recheck_topics`: forget the membership projections. -/
def recheckTopics (log : Oplog) : Oplog := { log with cache := log.cache.cleared }

end Oplog

end Irokle
