import Irokle.Spec.Memory

/-!
# Provisional namespaces

A topic the node does not hold is staged per source in a namespace with records of its own
(`src/storage/memory/staging.rs`). A view of a namespace names the session it was opened under and
is refused once that session ended. Activation copies one namespace into the active records and
ends every namespace of the topic.
-/

namespace Irokle

open Std

/-- `ProvisionalTopic`. -/
structure ProvisionalTopic where
  source : PeerId
  topicId : TopicId
  genesis : OpId
  session : ℕ
  updatedMs : ℕ
  activating : Bool
  revision : ℕ
  bytes : ℕ
deriving DecidableEq

/-- A registered namespace with its records. -/
structure Namespace where
  topic : ProvisionalTopic
  inner : MemoryInner
deriving DecidableEq

/-- The namespace and session a view was opened for. -/
structure ViewKey where
  source : PeerId
  topicId : TopicId
  session : ℕ
deriving DecidableEq

/-- `MemoryStorage`: the active records and the registry of namespaces. -/
structure MemoryStorage where
  inner : MemoryInner := {}
  namespaces : BTreeMap (PeerId × TopicId) Namespace := ∅
  sessions : ℕ := 0
  limits : StagingLimits := .memory
deriving DecidableEq

/-- The view of a namespace. -/
def ProvisionalTopic.viewKey (p : ProvisionalTopic) : ViewKey := ⟨p.source, p.topicId, p.session⟩

/-- The registry key of a namespace. -/
def ProvisionalTopic.key (p : ProvisionalTopic) : PeerId × TopicId := (p.source, p.topicId)

/-- `check_namespaces`. -/
def checkNamespaces (limits : StagingLimits) (namespaces fromSource : ℕ) : Result Unit := do
  refuseIf (namespaces ≥ limits.namespaces) (.stagingCapacity "bootstrap namespaces are full")
  refuseIf (fromSource ≥ limits.sourceNamespaces)
    (.stagingCapacity "bootstrap namespace quota exceeded for source")

namespace MemoryStorage

variable (s : MemoryStorage)

/-- The namespace a view was opened for, while its session lasts. -/
def viewed (v : ViewKey) : Option Namespace :=
  s.namespaces[(v.source, v.topicId)]?.filter fun ns => ns.topic.session == v.session

/-- `MemoryStorage::lock`: the active records, or those of a view whose session lasts. -/
def lock (view : Option ViewKey) : Result MemoryInner :=
  match view with
  | none => .ok s.inner
  | some v =>
    match s.viewed v with
    | some ns => .ok ns.inner
    | none => .error .staleIncarnation

/-- `Locked::quota`: what the other namespaces leave a view; `none` for the active records. -/
def quota (view : Option ViewKey) : Option StagingQuota :=
  view.map fun v =>
    let others := (s.namespaces.toList.filter fun e => decide (e.1 ≠ (v.source, v.topicId))).map (·.2.topic)
    StagingQuota.new s.limits (others.map (·.bytes)).sum
      ((others.filter fun p => decide (p.source = v.source)).map (·.bytes)).sum

/-- The storage once `writes` changes through a handle left the records `inner` behind: a view's
entry counts them and tells its bytes. -/
def release (view : Option ViewKey) (inner : MemoryInner) (writes : ℕ) : MemoryStorage :=
  match view with
  | none => { s with inner := inner }
  | some v =>
    match s.viewed v with
    | none => s
    | some ns =>
      let topic := if writes = 0 then ns.topic else
        { ns.topic with
          revision := min (ns.topic.revision + writes) (u64Size - 1)
          bytes := inner.admittedBytes + inner.pendingUsage.bytes }
      { s with namespaces := s.namespaces.insert (v.source, v.topicId) ⟨topic, inner⟩ }

/-- `read_namespaces`. -/
def provisionalTopics : List ProvisionalTopic := s.namespaces.toList.map (·.2.topic)

/-- `open_namespace`. -/
def openNamespace (reserve : Result Unit) (source : PeerId) (t : TopicId) (genesis : OpId) (now : ℕ) :
    Result (ProvisionalTopic × MemoryStorage) := do
  refuseIf (s.inner.topics.contains t = true) .admissionConflict
  match s.namespaces[(source, t)]? with
  | some ns => return (ns.topic, s)
  | none =>
    checkNamespaces s.limits s.namespaces.size (s.namespaces.keys.filter fun k => decide (k.1 = source)).length
    reserve
    let topic : ProvisionalTopic :=
      { source := source, topicId := t, genesis := genesis, session := s.sessions + 1, updatedMs := now
        activating := false, revision := 0, bytes := 0 }
    return (topic, { s with
      sessions := s.sessions + 1
      namespaces := s.namespaces.insert (source, t) ⟨topic, {}⟩ })

/-- `touch_namespace`. -/
def touchNamespace (p : ProvisionalTopic) (now : ℕ) : MemoryStorage :=
  match s.viewed p.viewKey with
  | none => s
  | some ns =>
    let topic := { ns.topic with updatedMs := max ns.topic.updatedMs now }
    { s with namespaces := s.namespaces.insert p.key { ns with topic := topic } }

/-- `discard_namespace`: a namespace ends only while it is exactly as it was read. -/
def discardNamespace (p : ProvisionalTopic) : Bool × MemoryStorage :=
  match s.namespaces[p.key]? with
  | some ns =>
    if ns.topic = p ∧ ns.topic.activating = false then (true, { s with namespaces := s.namespaces.erase p.key })
    else (false, s)
  | none => (false, s)

end MemoryStorage

/-! ## Activation -/

/-- The accumulators of `pending_moves`. -/
structure Moves where
  total : PendingUsage
  topic : PendingUsage
  sources : BTreeMap PeerId PendingUsage := ∅
  waiters : BTreeMap OpId ℕ := ∅
  moved : BTreeSet OpId := ∅
  moves : List (ℕ × OpId × BTreeSet OpId) := []

section Activation

variable (copied inner : MemoryInner) (t : TopicId)

/-- Both records of an op are stored once `copied` is active. -/
def resolvableWith (id : OpId) : Bool := inner.depResolvable id || copied.depResolvable id

/-- One more waiter on each dependency, unless that is too many. -/
def addWaiters (waiters : BTreeMap OpId ℕ) (missing : List OpId) : Result (BTreeMap OpId ℕ) :=
  missing.foldlM (fun w dep => do
    let added := w[dep]?.getD 0
    refuseIf ((SetMap.get inner.pendingWaiters dep).size + added ≥ maxPendingWaitersPerDep)
      (.storage "pending waiter quota exceeded")
    return w.insert dep (added + 1)) waiters

/-- Plan the move of one buffered op. An admitted, already buffered or rejected one needs no move. -/
def planMove (index : ℕ) (staged : MemoryInner) (s : Moves) (id : OpId) : Result Moves :=
  match staged.pendingRecords[id]? with
  | none => .ok s
  | some record =>
    let rejected := inner.rejected[t]?.any fun r => (id :: record.missing.toList).any fun id => r.ids.contains id
    if resolvableWith copied inner id || inner.pendingRecords.contains id || rejected || s.moved.contains id then
      .ok s
    else do
      let source := s.sources[record.source]?.getD (usageOf inner.sourceUsage record.source)
      checkPendingQuota s.total source s.topic record.charge
      let missing := record.missing.filter fun dep => !resolvableWith copied inner dep
      let waiters ← addWaiters inner s.waiters missing.toList
      return {
        total := s.total.charged record.charge
        topic := s.topic.charged record.charge
        sources := s.sources.insert record.source (source.charged record.charge)
        waiters := waiters
        moved := s.moved.insert id
        moves := s.moves ++ [(index, id, missing)] }

/-- `pending_moves`: the buffered ops of the topic in `stores`, each with its store and what it
misses of the dependencies it waited for. -/
def pendingMoves (stores : List MemoryInner) : Result (List (ℕ × OpId × BTreeSet OpId)) := do
  let s ← stores.zipIdx.foldlM (fun s e =>
      (SetMap.get e.1.pendingByTopic t).toList.foldlM (planMove copied inner t e.2 e.1) s)
    ({ total := inner.pendingUsage, topic := usageOf inner.topicUsage t } : Moves)
  return s.moves

/-- Buffer one checked move, with the source and charge its record had. -/
def moveOp (stores : List MemoryInner) (p : PendingIndex) (move : ℕ × OpId × BTreeSet OpId) : PendingIndex :=
  let (index, id, missing) := move
  match stores[index]?.bind fun staged => staged.pendingRecords[id]?,
      stores[index]?.bind fun staged => staged.pendingOps[id]? with
  | some record, some op =>
    { p with
      pendingWaiters := PendingIndex.waitAll p.pendingWaiters missing.toList id
      pendingReady := if missing.isEmpty then p.pendingReady.insert id else p.pendingReady
      pendingUsage := p.pendingUsage.charged record.charge
      sourceUsage := p.sourceUsage.insert record.source
        ((usageOf p.sourceUsage record.source).charged record.charge)
      topicUsage := p.topicUsage.insert t ((usageOf p.topicUsage t).charged record.charge)
      pendingByTopic := SetMap.insert p.pendingByTopic t id
      pendingRecords := p.pendingRecords.insert id { record with missing := missing }
      pendingOps := p.pendingOps.insert id op }
  | _, _ => p

/-- `move_pending`. -/
def movePending (stores : List MemoryInner) (p : PendingIndex) (moves : List (ℕ × OpId × BTreeSet OpId)) :
    PendingIndex :=
  moves.foldl (moveOp t stores) p

end Activation

/-- Copy both records of one op, with the edges to it. -/
def Records.copyOp (staged r : Records) (id : OpId) : Records :=
  match staged.ops[id]?, staged.metas[id]? with
  | some op, some m =>
    { r with
      children := m.deps.toList.foldl (fun c dep => SetMap.insert c dep id) r.children
      ops := r.ops.insert id op
      metas := r.metas.insert id m }
  | _, _ => r

/-- Put the entry of `k` in `m`, when there is one. -/
def copyKey {κ ν : Type} [Ord κ] [TransOrd κ] (staged m : BTreeMap κ ν) (k : κ) : BTreeMap κ ν :=
  match staged[k]? with
  | some v => m.insert k v
  | none => m

/-- `copy_topic_locked`: every record of a topic. -/
def Records.copyTopic (staged r : Records) (t : TopicId) : Records :=
  let r := (staged.listOpIds t).toList.foldl staged.copyOp r
  { r with
    topicOps := r.topicOps.insert t (staged.listOpIds t)
    actorBySeq := r.actorBySeq ∪ staged.actorBySeq.filter fun k _ => decide (k.1 = t)
    actorTip := r.actorTip ∪ staged.actorTip.filter fun k _ => decide (k.1 = t)
    heads := copyKey staged.heads r.heads t
    actorClock := copyKey staged.actorClock r.actorClock t
    topicFingerprint := copyKey staged.topicFingerprint r.topicFingerprint t
    maxGeneration := copyKey staged.maxGeneration r.maxGeneration t }

namespace MemoryStorage

variable (s : MemoryStorage)

/-- The namespaces of a topic, by source. -/
def namespacesOf (t : TopicId) : List ((PeerId × TopicId) × Namespace) :=
  s.namespaces.toList.filter fun e => decide (e.1.2 = t)

/-- The records of the namespaces of a topic on one branch. -/
def branchStores (t : TopicId) (genesis : OpId) : List MemoryInner :=
  ((s.namespacesOf t).filter fun e => decide (e.2.topic.genesis = genesis)).map (·.2.inner)

end MemoryStorage

/-- A call on locked records: what it has written stays when a later step is refused. -/
abbrev LockedCall := ExceptT Error (StateM MemoryStorage)

open MonadExcept in
/-- The steps of `activate_namespace` on the locked registry and records. -/
def activateLocked (reserve : ℕ → Result Unit) (p : ProvisionalTopic) (expected : TopicState)
    (effects : AdmissionEffects) :
    LockedCall Unit := do
  let t := p.topicId
  ofExcept (refuseIf (effects.syncObligations.any (·.topicId ≠ t)) .topicMismatch)
  let s ← get
  ofExcept (refuseIf (s.inner.topics.contains t = true) .admissionConflict)
  let ns ← ofExcept ((s.viewed p.viewKey).elim (.error .staleIncarnation) .ok)
  ofExcept (refuseIf (ns.inner.topicState t ≠ some expected) .admissionConflict)
  ofExcept (reserve 0)
  ofExcept (reserve 1)
  let changes ← ofExcept (mergedEffects s.inner.toEvidence t (some expected.genesis) effects.syncObligations ∅)
  let branch := s.branchStores t p.genesis
  let moves ← ofExcept (pendingMoves ns.inner s.inner t branch)
  ofExcept (reserve 2)
  modify fun s => { s with inner.toRecords := ns.inner.toRecords.copyTopic s.inner.toRecords t }
  modify fun s => { s with inner.toPendingIndex := movePending t branch s.inner.toPendingIndex moves }
  modify fun s => { s with inner.topics := s.inner.topics.insert t expected }
  modify fun s => { s with
    inner.toEvidence := (changes.toList.map (·.2)).foldl Evidence.putObligationLocked s.inner.toEvidence }
  modify fun s => { s with namespaces := s.namespaces.filter fun k _ => decide (k.2 ≠ t) }

/-- `activate_namespace`: the answer, and the store as the call leaves it. -/
def MemoryStorage.activateNamespace (s : MemoryStorage) (reserve : ℕ → Result Unit) (p : ProvisionalTopic)
    (expected : TopicState) (effects : AdmissionEffects) : Result Unit × MemoryStorage :=
  (activateLocked reserve p expected effects).run.run s

end Irokle
