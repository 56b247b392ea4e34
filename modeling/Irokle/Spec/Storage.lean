import Irokle.Spec.Staging

/-!
# Runs of a memory store

The writes of `MemoryStorage` (`src/storage/memory/mod.rs`, `src/storage/memory/staging.rs`), each
with its own reservations, and the runs they form. A write goes to the active records or, through a
view, to those of a namespace.
-/

namespace Irokle

open Std

/-- A write to the records a handle locks. -/
inductive Write
  | admittedBatch (b : AdmittedBatch)
  | resetTopic (t : TopicId)
  | resetTopicAndAdmit (t : TopicId) (expected : TopicState) (b : AdmittedBatch) (eviction : Option TopicEviction)
  | putPendingBound (source : PeerId) (op : Op) (m : OpMeta) (genesis : Option OpId)
  | removePendingOp (id : OpId)
  | purgePendingWaiters (dep : OpId)
  | rejectPendingSubtree (id : OpId)
  | expirePending (now maxIdle : ℕ)
  | applyPeerAck (ack : PeerAck)
  | putSyncObligation (o : SyncObligation) (expected : Option OpId)
  | clearPeerSyncState (peer : PeerId) (t : TopicId) (expected : Option OpId)
  | sealTopic (t : TopicId)
  | unsealTopic (t : TopicId)
  | clearEviction (key : EvictionKey)

/-- The records after a write to the buffer that may stop half way. -/
def MemoryInner.withBuffer {α : Type} (inner : MemoryInner) (res : Result α × PendingIndex) :
    Result Unit × MemoryInner :=
  (res.1.map fun _ => (), { inner with toPendingIndex := res.2 })

/-- The records after a write that returns its part of them or an error. -/
def MemoryInner.update {α : Type} (inner : MemoryInner) (f : α → MemoryInner)
    (res : Result α) : Result Unit × MemoryInner :=
  match res with
  | .ok a => (.ok (), f a)
  | .error e => (.error e, inner)

/-- A write under the lock, with what the other namespaces leave a view. -/
def Write.run (E : Env) (reserve : ℕ → Result Unit) (quota : Option StagingQuota) (inner : MemoryInner) :
    Write → Result Unit × MemoryInner
  | .admittedBatch b => admitBatchLocked E reserve quota inner b
  | .resetTopic t =>
    let (res, inner) := resetTopicLocked E (reserve 0) inner t
    (res.map fun _ => (), inner)
  | .resetTopicAndAdmit t expected b eviction =>
    -- a namespace holds one branch
    if quota.isSome then (.error .staleIncarnation, inner)
    else inner.update (·.2) (Irokle.resetTopicAndAdmit E reserve inner t expected b eviction)
  | .putPendingBound source op m genesis =>
    inner.update (fun p => { inner with toPendingIndex := p })
      (Irokle.putPendingBound E reserve quota inner source op m genesis)
  | .removePendingOp id => inner.withBuffer (inner.removePendingOp id)
  | .purgePendingWaiters dep => inner.withBuffer (inner.purgePendingWaiters dep)
  | .rejectPendingSubtree id => inner.withBuffer (inner.rejectPendingSubtree (reserve 0) id)
  | .expirePending now maxIdle => inner.withBuffer (inner.expirePending now maxIdle)
  | .applyPeerAck ack =>
    inner.update (fun res => { inner with toEvidence := res.2 }) (Irokle.applyPeerAck reserve inner ack)
  | .putSyncObligation o expected =>
    inner.update (fun v => { inner with toEvidence := v }) (Irokle.putSyncObligation reserve inner o expected)
  | .clearPeerSyncState peer t expected =>
    (.ok (), { inner with toEvidence := Irokle.clearPeerSyncState inner peer t expected })
  | .sealTopic t => inner.update (fun _ => { inner with sealedTopics := inner.sealedTopics.insert t }) (reserve 0)
  | .unsealTopic t => (.ok (), { inner with sealedTopics := inner.sealedTopics.erase t })
  | .clearEviction key => (.ok (), { inner with evictions := inner.evictions.erase key })

/-- The write borrows the records mutably, which a view's entry counts as a change. The writes that check
something first borrow them after the last check. -/
def Write.touches (reserve : ℕ → Result Unit) (res : Result Unit) (before after : MemoryInner) : Write → Bool
  | .resetTopicAndAdmit _ _ _ _ | .putPendingBound _ _ _ _ => decide (after ≠ before)
  | .purgePendingWaiters dep => !(before.waiterClosureLocked dep).isEmpty
  | .rejectPendingSubtree id => before.pendingRecords.contains id && (reserve 0).toBool
  | .putSyncObligation _ _ | .sealTopic _ => res.toBool
  | .clearPeerSyncState peer t expected => peerDeparted before.topics[t]? peer expected
  | _ => true

/-- A write through a handle. -/
def MemoryStorage.write (E : Env) (reserve : ℕ → Result Unit) (s : MemoryStorage) (view : Option ViewKey)
    (w : Write) :
    Result Unit × MemoryStorage :=
  match s.lock view with
  | .error e => (.error e, s)
  | .ok inner =>
    let (res, inner') := w.run E reserve (s.quota view) inner
    (res, s.release view inner' (if w.touches reserve res inner inner' then 1 else 0))

/-- An operation of a store. -/
inductive StorageOp
  | write (view : Option ViewKey) (w : Write)
  | openNamespace (source : PeerId) (t : TopicId) (genesis : OpId) (now : ℕ)
  | touchNamespace (p : ProvisionalTopic) (now : ℕ)
  | activateNamespace (p : ProvisionalTopic) (expected : TopicState) (effects : AdmissionEffects)
  | discardNamespace (p : ProvisionalTopic)

/-- An operation with the answers of its reservations. -/
structure StorageEvent where
  op : StorageOp
  reserve : ℕ → Result Unit := fun _ => .ok ()

/-- The store after an operation, and whether it failed. -/
def MemoryStorage.apply (E : Env) (s : MemoryStorage) (ev : StorageEvent) : Result Unit × MemoryStorage :=
  match ev.op with
  | .write view w => s.write E ev.reserve view w
  | .openNamespace source t genesis now =>
    match s.openNamespace (ev.reserve 0) source t genesis now with
    | .ok (_, s) => (.ok (), s)
    | .error e => (.error e, s)
  | .touchNamespace p now => (.ok (), s.touchNamespace p now)
  | .activateNamespace p expected effects => s.activateNamespace ev.reserve p expected effects
  | .discardNamespace p => (.ok (), (s.discardNamespace p).2)

/-- The store after an operation. -/
def MemoryStorage.step (E : Env) (s : MemoryStorage) (ev : StorageEvent) : MemoryStorage := (s.apply E ev).2

/-- The store after a sequence of operations. -/
def MemoryStorage.run (E : Env) (s : MemoryStorage) (evs : List StorageEvent) : MemoryStorage :=
  evs.foldl (MemoryStorage.step E) s

end Irokle
