import Irokle.Lib.Outcome
import Irokle.Spec.Evidence

/-!
# Writes of a memory store

Each write of `src/storage/memory/mod.rs` runs under one lock: it checks everything it can refuse
before it changes anything, so most writes return the new records or an error. The writes whose
loops can fail half way return the records they leave behind as well.
-/

namespace Irokle

open Std

/-- Run a write for each element, stopping at the first one that fails. -/
def forEach {σ α : Type} (f : σ → α → Result Unit × σ) : σ → List α → Result Unit × σ
  | s, [] => (.ok (), s)
  | s, a :: l =>
    match f s a with
    | (.ok (), s') => forEach f s' l
    | (.error e, s') => (.error e, s')

/-- Fail with `e` when `b` holds. -/
def refuseIf (b : Prop) [Decidable b] (e : Error) : Result Unit := if b then .error e else .ok ()

@[simp] theorem refuseIf_eq_ok {b : Prop} [Decidable b] {e : Error} {u : Unit} :
    refuseIf b e = .ok u ↔ ¬b := by
  unfold refuseIf
  split <;> simp_all

theorem refuseIf_post {b : Prop} [Decidable b] {e : Error} {P : Unit → Prop} {Q : Error → Prop} (hb : b → Q e)
    (hP : ¬b → P ()) : Outcome.Post (refuseIf b e) P Q := by
  unfold refuseIf
  split
  · exact hb ‹_›
  · exact hP ‹_›

theorem refuseIf_bind {α : Type} {b : Prop} [Decidable b] {e : Error} {f : Unit → Result α} {P : α → Prop}
    {Q : Error → Prop} (hb : b → Q e) (hf : ¬b → Outcome.Post (f ()) P Q) :
    Outcome.Post (refuseIf b e >>= f) P Q := by
  unfold refuseIf
  split
  · exact hb ‹_›
  · exact hf ‹_›

/-! ## Admission of a batch -/

/-- The metadata describes the op it is stored beside. -/
def metaMatches (op : Op) (m : OpMeta) : Bool :=
  decide (m.id = op.id ∧ m.author = op.body.author ∧ m.actorId = op.body.actorId ∧
    m.actorSeq = op.body.actorSeq ∧ m.actorPrev = op.body.actorPrev ∧ m.deps = op.body.deps ∧
    m.generation = op.body.generation ∧ m.ready = true ∧ m.missingDeps = ∅)

/-- `validate_batch`. -/
def validateBatch (b : AdmittedBatch) : Result Unit := do
  refuseIf (b.expectedTopicState.any (·.topicId ≠ b.topicId)) .topicMismatch
  refuseIf (b.topicState.any (·.topicId ≠ b.topicId)) .topicMismatch
  refuseIf (b.topicState.any (·.heads ≠ b.heads)) (.storage "topic state frontier mismatch")
  b.entries.forM fun (op, m) => do
    refuseIf (op.body.topicId ≠ b.topicId ∨ m.topicId ≠ b.topicId) .topicMismatch
    refuseIf (metaMatches op m = false) (.storage "operation metadata mismatch")

/-- The chain already accounts for the id: a record, an actor slot or a child names it. -/
def Records.accounted (r : Records) (m : OpMeta) : Bool :=
  r.ops.contains m.id || r.metas.contains m.id ||
    decide (r.actorBySeq[(m.topicId, m.actorId, m.actorSeq)]? = some m.id) || r.children.contains m.id

/-- `validate_heads`: the frontier after the entries that append to the chain. -/
def validateHeads (b : AdmittedBatch) (accounted : OpMeta → Bool) : Result Unit :=
  let appended := b.entries.filter fun e => !accounted e.2
  let heads := appended.foldl (fun h e => h.insert e.1.id) b.expectedHeads
  let consumed : BTreeSet OpId := appended.foldl (fun c e => c ∪ e.1.body.deps) ∅
  refuseIf (heads \ consumed ≠ b.heads) (.storage "admitted frontier mismatch")

/-- The obligations a batch adds, merged with those stored, by peer and kind. -/
def mergedEffects (v : Evidence) (t : TopicId) (genesis : Option OpId) :
    List SyncObligation → BTreeMap (PeerId × ObligationKind) SyncObligation →
      Result (BTreeMap (PeerId × ObligationKind) SyncObligation)
  | [], effects => .ok effects
  | o :: rest, effects => do
    refuseIf (o.topicId ≠ t) .topicMismatch
    if o.isEmpty || ackCovers v.peerAcks[(o.peerId, t)]? genesis o then
      mergedEffects v t genesis rest effects
    else
      let key := (o.peerId, ObligationKind.of o)
      let merged ← match effects[key]? with
        | some pending => mergedObligation (some pending) o
        | none => v.mergedObligationLocked o
      mergedEffects v t genesis rest (effects.insert key merged)

/-- Check one entry against the chain: `none` when both its records are stored already, and whether
it appends to its actor's chain otherwise. -/
def checkEntry (r : Records) (tips : BTreeMap (TopicId × ActorId) (ℕ × OpId)) (op : Op) (m : OpMeta) :
    Result (Option Bool) := do
  refuseIf (r.ops[op.id]?.any (· ≠ op)) (.storage "op id collision with different op")
  let hasOp := r.ops.contains op.id
  let hasMeta := r.metas.contains op.id
  if hasOp && hasMeta then return none
  let indexed := r.actorBySeq[(m.topicId, m.actorId, m.actorSeq)]?
  refuseIf (indexed.any (· ≠ op.id)) .actorFork
  -- Refilling an id the chain accounts for is not an append.
  if hasOp || hasMeta || indexed == some op.id || r.children.contains op.id then return some false
  let key := (m.topicId, m.actorId)
  match tips[key]?.or r.actorTip[key]? with
  | some (seq, id) =>
    match checkedSucc seq with
    | none => throw .invalidOpId
    | some expected =>
      refuseIf (m.actorSeq ≠ expected) (.actorSeqGap expected m.actorSeq)
      refuseIf (m.actorPrev ≠ some id) .actorPrevMismatch
  | none =>
    refuseIf (m.actorSeq ≠ 1) (.actorSeqGap 1 m.actorSeq)
    refuseIf m.actorPrev.isSome .actorPrevMismatch
  return some true

/-- The entries to write, in order, once each passes its check. -/
def newEntries (r : Records) (t : TopicId) :
    List (Op × OpMeta) → BTreeMap (TopicId × ActorId) (ℕ × OpId) → Result (List (Op × OpMeta))
  | [], _ => .ok []
  | (op, m) :: rest, tips => do
    refuseIf (m.topicId ≠ t) .topicMismatch
    match ← checkEntry r tips op m with
    | none => newEntries r t rest tips
    | some false => return (op, m) :: (← newEntries r t rest tips)
    | some true =>
      return (op, m) :: (← newEntries r t rest (tips.insert (m.topicId, m.actorId) (m.actorSeq, op.id)))

/-- `ensure_deps_resolvable`. -/
def ensureDepsResolvable (r : Records) (entries : List (Op × OpMeta)) : Result Unit :=
  let batch : BTreeSet OpId := ExtTreeSet.ofList (entries.map (·.1.id)) compare
  entries.forM fun (_, m) => m.deps.toList.forM fun dep =>
    refuseIf (dep ∉ batch ∧ r.depResolvable dep = false) (.missingDependency dep)

/-- What `admit_batch_locked` has decided once all of its checks passed. -/
structure AdmitPlan where
  effects : BTreeMap (PeerId × ObligationKind) SyncObligation
  removedPeers : List PeerId
  entries : List (Op × OpMeta)
  clock : ActorClock
  charge : ℕ

/-- The checks of `admit_batch_locked`, in their order; nothing is written yet. -/
def admitPlan (E : Env) (reserve : ℕ → Result Unit) (quota : Option StagingQuota) (inner : MemoryInner)
    (b : AdmittedBatch) : Result AdmitPlan := do
  validateBatch b
  refuseIf (inner.headsOf b.topicId ≠ b.expectedHeads) .admissionConflict
  refuseIf (inner.topicState b.topicId ≠ b.expectedTopicState) .admissionConflict
  validateHeads b inner.accounted
  let genesis := (b.topicState.or b.expectedTopicState).map (·.genesis)
  reserve 0
  let effects ← mergedEffects inner.toEvidence b.topicId genesis b.effects.syncObligations ∅
  let removedPeers := match b.expectedTopicState, b.topicState with
    | some expected, some state => (expected.members \ state.members).toList
    | _, _ => []
  let entries ← newEntries inner.toRecords b.topicId b.entries ∅
  ensureDepsResolvable inner.toRecords entries
  let clock := entries.foldl (fun c e => c.observe e.2.actorId e.2.actorSeq) (inner.clockOf b.topicId)
  reserve 1
  let charge := ((entries.filter fun e => !inner.ops.contains e.1.id).map fun e => E.opBytes e.1).sum
  match quota with
  | some quota => quota.check (inner.admittedBytes + inner.pendingUsage.bytes) charge
  | none => .ok ()
  return { effects, removedPeers, entries, clock, charge := if quota.isSome then charge else 0 }

/-- The history part of writing one entry. -/
def Records.writeEntry (r : Records) (op : Op) (m : OpMeta) : Records :=
  let key := (m.topicId, m.actorId)
  { r with
    topicOps := SetMap.insert r.topicOps m.topicId op.id
    children := m.deps.toList.foldl (fun c dep => SetMap.insert c dep op.id) r.children
    actorBySeq := r.actorBySeq.insert (m.topicId, m.actorId, m.actorSeq) op.id
    actorTip := match r.actorTip[key]? with
      | some tip => if tip.1 < m.actorSeq then r.actorTip.insert key (m.actorSeq, op.id) else r.actorTip
      | none => r.actorTip.insert key (m.actorSeq, op.id)
    maxGeneration := r.maxGeneration.insert m.topicId (max (r.maxGenerationOf m.topicId) m.generation) }

/-- Write one entry: the indexes, the buffer without it, then both records. -/
def writeEntry (inner : MemoryInner) (e : Op × OpMeta) : Result Unit × MemoryInner :=
  let indexed := { inner with toRecords := inner.toRecords.writeEntry e.1 e.2 }
  match inner.removePendingLocked e.1.id with
  | .error err => (.error err, indexed)
  | .ok pending => (.ok (), { indexed with
      toPendingIndex := pending.settleWaitersLocked e.1.id
      metas := inner.metas.insert e.1.id e.2
      ops := inner.ops.insert e.1.id e.1 })

/-- The frontier, clock, fingerprint and state of the topic after a batch. -/
def Records.writeTopic (E : Env) (r : Records) (b : AdmittedBatch) (clock : ActorClock) : Records :=
  { r with
    actorClock := r.actorClock.insert b.topicId clock
    heads := r.heads.insert b.topicId b.heads
    topicFingerprint := r.topicFingerprint.insert b.topicId (E.topicFingerprintFor b.heads clock)
    topics := match b.topicState with
      | some state => r.topics.insert state.topicId state
      | none => r.topics }

/-- `admit_batch_locked`. -/
def admitBatchLocked (E : Env) (reserve : ℕ → Result Unit) (quota : Option StagingQuota)
    (inner : MemoryInner) (b : AdmittedBatch) : Result Unit × MemoryInner :=
  match admitPlan E reserve quota inner b with
  | .error e => (.error e, inner)
  | .ok plan =>
    match forEach writeEntry { inner with admittedBytes := inner.admittedBytes + plan.charge } plan.entries with
    | (.error e, inner) => (.error e, inner)
    | (.ok (), inner) =>
      let evidence := (plan.effects.toList.map (·.2)).foldl Evidence.putObligationLocked inner.toEvidence
      (.ok (), { inner with
        toRecords := inner.toRecords.writeTopic E b plan.clock
        toEvidence := plan.removedPeers.foldl (fun v p => v.dropPeer b.topicId p) evidence })

/-! ## Resets -/

/-- Remove one op of a topic that is reset, with the edges from and to it. -/
def Records.dropOp (r : Records) (id : OpId) : Records :=
  let deps := (r.metas[id]?.map (·.deps)).getD ∅
  { r with
    children := (deps.toList.foldl (fun c dep => SetMap.erase c dep id) r.children).erase id
    ops := r.ops.erase id
    metas := r.metas.erase id }

/-- Remove the topic's own entries once its ops are gone. -/
def Records.dropTopic (r : Records) (t : TopicId) : Records :=
  { r with
    topicOps := r.topicOps.erase t
    heads := r.heads.erase t
    actorClock := r.actorClock.erase t
    topicFingerprint := r.topicFingerprint.erase t
    maxGeneration := r.maxGeneration.erase t
    topics := r.topics.erase t
    actorBySeq := r.actorBySeq.filter fun k _ => decide (k.1 ≠ t)
    actorTip := r.actorTip.filter fun k _ => decide (k.1 ≠ t) }

/-- The history part of `reset_topic_locked`. -/
def Records.resetTopic (r : Records) (t : TopicId) : Records :=
  ((r.listOpIds t).toList.foldl Records.dropOp r).dropTopic t

/-- The admitted bytes left once the ops of a topic are refunded. -/
def refundBytes (E : Env) (inner : MemoryInner) (t : TopicId) : ℕ :=
  (inner.listOpIds t).toList.foldl (fun bytes id => match inner.ops[id]? with
    | some op => if bytes > 0 then bytes - E.opBytes op else bytes
    | none => bytes) inner.admittedBytes

/-- `reset_topic_locked`. -/
def resetTopicLocked (E : Env) (reserve : Result Unit) (inner : MemoryInner) (t : TopicId) :
    Result ℕ × MemoryInner :=
  match reserve with
  | .error e => (.error e, inner)
  | .ok () =>
    let cleared := { inner with
      toRecords := inner.toRecords.resetTopic t
      toEvidence := inner.toEvidence.dropTopic t
      topicEpochs := inner.topicEpochs.insert t (inner.topicEpochs[t]?.getD 0 + 1)
      admittedBytes := refundBytes E inner t
      rejected := inner.rejected.erase t }
    match cleared.removeAll (SetMap.get inner.pendingByTopic t).toList with
    | (.error e, pending) => (.error e, { cleared with toPendingIndex := pending })
    | (.ok (), pending) => (.ok (inner.listOpIds t).size, { cleared with toPendingIndex := pending })

/-- `journalled_eviction`: an eviction without payloads takes no record. -/
def journalledEviction (E : Env) (eviction : Option TopicEviction) : Option (EvictionKey × TopicEviction) :=
  match eviction with
  | some e => if e.evicted.isEmpty then none else some (E.evictionKey e, e)
  | none => none

/-- Record an eviction in the journal, unless it is full. -/
def journal (E : Env) (reserve : Result Unit) (evictions : BTreeMap EvictionKey TopicEviction)
    (eviction : Option TopicEviction) : Result (BTreeMap EvictionKey TopicEviction) :=
  match journalledEviction E eviction with
  | none => .ok evictions
  | some (key, e) => do
    refuseIf (evictions.contains key = false ∧ evictions.size ≥ maxPendingEvictions) .evictionJournalFull
    reserve
    .ok (evictions.insert key e)

/-- `reset_topic_and_admit`: both steps run on a copy that replaces the records only once the
winner is admitted and the eviction journalled. -/
def resetTopicAndAdmit (E : Env) (reserve : ℕ → Result Unit) (inner : MemoryInner) (t : TopicId)
    (expected : TopicState) (b : AdmittedBatch) (eviction : Option TopicEviction) :
    Result (ℕ × MemoryInner) := do
  refuseIf (t ∈ inner.sealedTopics) .topicSealed
  refuseIf (inner.topicState t ≠ some expected) .admissionConflict
  reserve 2
  let (removed, staged) := resetTopicLocked E (reserve 3) inner t
  let removed ← removed
  let (admitted, staged) := admitBatchLocked E reserve none staged b
  admitted
  let evictions ← journal E (reserve 4) staged.evictions eviction
  return (removed, { staged with evictions := evictions })

/-! ## Buffering -/

/-- Buffer an op that passed every check, or move the waits of one buffered before. -/
def PendingIndex.store (p : PendingIndex) (source : PeerId) (op : Op) (missing : BTreeSet OpId)
    (charge : ℕ) : PendingIndex :=
  let previous := (p.pendingRecords[op.id]?.map (·.missing)).getD ∅
  let waiters := PendingIndex.unwaitAll p.pendingWaiters (previous \ missing).toList op.id
  let waiting := { p with
    pendingWaiters := PendingIndex.waitAll waiters missing.toList op.id
    pendingReady := if missing.isEmpty then p.pendingReady.insert op.id else p.pendingReady.erase op.id }
  match p.pendingRecords[op.id]? with
  | some record =>
    { waiting with pendingRecords := p.pendingRecords.insert op.id { record with missing := missing } }
  | none =>
    let t := op.body.topicId
    { waiting with
      pendingUsage := p.pendingUsage.charged charge
      sourceUsage := p.sourceUsage.insert source ((usageOf p.sourceUsage source).charged charge)
      topicUsage := p.topicUsage.insert t ((usageOf p.topicUsage t).charged charge)
      pendingByTopic := SetMap.insert p.pendingByTopic t op.id
      pendingRecords := p.pendingRecords.insert op.id ⟨source, t, missing, charge⟩
      pendingOps := p.pendingOps.insert op.id op }

/-- `put_pending_bound`. -/
def putPendingBound (E : Env) (reserve : ℕ → Result Unit) (quota : Option StagingQuota)
    (inner : MemoryInner) (source : PeerId) (op : Op) (m : OpMeta) (genesis : Option OpId) :
    Result PendingIndex := do
  let charge := E.opBytes op
  let t := op.body.topicId
  refuseIf (m.topicId ≠ t ∨ m.id ≠ op.id) .topicMismatch
  refuseIf (m.missingDeps.size > maxPendingMissingDeps) (.storage "pending op has too many missing deps")
  if genesis.isSome then branchMatches inner.topics[t]? genesis else .ok ()
  if inner.depResolvable op.id then return inner.toPendingIndex
  refuseIf (m.missingDeps.toList.any fun dep => inner.depResolvable dep) .admissionConflict
  match (op.id :: m.missingDeps.toList).find? fun id => (inner.rejected[t]?.getD {}).ids.contains id with
  | some id => throw (.rejectedOp id)
  | none => pure ()
  let record := inner.pendingRecords[op.id]?
  refuseIf (record.isSome ∧ inner.pendingOps[op.id]? ≠ some op)
    (.storage "pending op id collision with different op")
  if record.any (·.missing = m.missingDeps) then return inner.toPendingIndex
  m.missingDeps.toList.forM fun dep =>
    refuseIf (record.all (dep ∉ ·.missing) ∧
      (SetMap.get inner.pendingWaiters dep).size ≥ maxPendingWaitersPerDep)
      (.storage "pending waiter quota exceeded")
  if record.isNone then
    match quota with
    | some quota => quota.check (inner.admittedBytes + inner.pendingUsage.bytes) charge
    | none => pure ()
    checkPendingQuota inner.pendingUsage (usageOf inner.sourceUsage source)
      (usageOf inner.topicUsage t) charge
  reserve 0
  return inner.toPendingIndex.store source op m.missingDeps charge

/-! ## Evidence, seals and the eviction journal -/

/-- `put_sync_obligation`. -/
def putSyncObligation (reserve : ℕ → Result Unit) (inner : MemoryInner) (o : SyncObligation)
    (expected : Option OpId) : Result Evidence := do
  branchMatches inner.topics[o.topicId]? expected
  reserve 0
  let merged ← inner.mergedObligationLocked o
  reserve 1
  return inner.putObligationLocked merged

/-- `apply_peer_ack`. -/
def applyPeerAck (reserve : ℕ → Result Unit) (inner : MemoryInner) (ack : PeerAck) :
    Result (ℕ × Evidence) :=
  inner.applyAckLocked reserve inner.toRecords ack

/-- `clear_peer_sync_state`. -/
def clearPeerSyncState (inner : MemoryInner) (peer : PeerId) (t : TopicId) (expected : Option OpId) :
    Evidence :=
  if peerDeparted inner.topics[t]? peer expected then inner.toEvidence.dropPeer t peer
  else inner.toEvidence

/-- `peer_reached_op`. -/
def peerReachedOp (inner : MemoryInner) (peer : PeerId) (id : OpId) : Bool :=
  match inner.metas[id]? with
  | none => false
  | some m =>
    match inner.topics[m.topicId]?, inner.peerAcks[(peer, m.topicId)]? with
    | some state, some ack => ackReachedOp ack state.genesis id m
    | _, _ => false

end Irokle
