import Irokle.Spec.Quarantine
import Irokle.Spec.Storage
import Irokle.Spec.Sync

/-!
# Runs of a node

A node (`src/node/mod.rs`, `src/node/bootstrap.rs`) writes locally, receives ops for the topics it
holds, and stages what it receives for the others until the staged history proves that it and the
source are members. Its runs interleave these with the upkeep of its store.
-/

namespace Irokle

open Std

/-- `MAX_STAGED_IDLE_MS`. -/
def stagedIdleMs : ℕ := 10 * 60 * 1000

/-- `Irokle`: this peer's id, the store, and what its oplog keeps across calls. -/
structure Node where
  peer : PeerId
  storage : MemoryStorage := {}
  cache : MembershipCache := {}
  writes : ℕ := 0
  debug : List (OpId × Error) := []

/-- `StagedTopic`: what a namespace holds of its topic. -/
structure StagedTopic where
  genesis : Option OpId := none
  session : ℕ := 0
  clock : ActorClock := ∅
  bytes : ℕ := 0
deriving DecidableEq

/-- `Bootstrap`: the topic is active, or still staged. -/
inductive Bootstrap
  | active (held : BTreeSet OpId)
  | staged (topic : StagedTopic)

/-- `ReceiveOutcome`: what was accepted and evicted, or what is staged. -/
inductive ReceiveOutcome
  | acked (accepted : BTreeSet OpId) (evictions : List TopicEviction)
  | staged (topic : StagedTopic)

/-- The peers a node syncs a topic with. They depend on the peers' health, so each call takes them as an
argument. -/
abbrev SyncPeers := TopicId → TopicState → List PeerId

/-- One clock obligation for each selected peer. -/
def clockObligations (peers : List PeerId) (t : TopicId) (target : ActorClock) : AdmissionEffects :=
  ⟨peers.map fun p => ⟨p, t, .clock target⟩⟩

/-- `staged_of`. -/
def stagedOf (p : ProvisionalTopic) (inner : MemoryInner) : StagedTopic where
  genesis := some p.genesis
  session := p.session
  clock := inner.clockOf p.topicId
  bytes := inner.admittedBytes + inner.pendingUsage.bytes

/-- `reclaim_count`. -/
def reclaimCount (total incoming limit : ℕ) (losers : List ℕ) : Option ℕ :=
  let fits (total : ℕ) : Bool := decide (total + incoming < u64Size ∧ total + incoming ≤ limit)
  let remaining := losers.foldl (fun acc bytes => acc ++ [acc.getLastD total - bytes]) [total]
  remaining.findIdx? fits

namespace Node

variable (E : Env) (peers : SyncPeers) (n : Node)

/-! ## Calls through a handle -/

/-- The oplog over the records a handle locks. -/
def oplog (inner : MemoryInner) : Oplog :=
  { inner := inner, cache := n.cache, writes := n.writes, debug := n.debug }

/-- The node once a call through a handle left `log` behind. -/
def settle (view : Option ViewKey) (log : Oplog) : Node :=
  { n with
    storage := n.storage.release view log.inner log.revision
    cache := log.cache
    writes := log.writes
    debug := log.debug }

/-- What an oplog call through a handle does to the node. -/
def through {α : Type} (view : Option ViewKey) (call : View → Oplog → Result α × Oplog)
    (bound : Option (TopicId × OpId)) : Result α × Node :=
  match n.storage.lock view with
  | .error e => (.error e, n)
  | .ok inner =>
    let (res, log) := call ⟨bound, n.storage.quota view⟩ (n.oplog inner)
    (res, n.settle view log)

/-- A receive as an oplog call. Its rounds suffice, so it always returns. -/
def receiveCall (verified : BTreeSet OpId) (effects : Option ReceiveEffects) (source : Option PeerId)
    (ops : List Op) (V : View) (log : Oplog) : Result Admitted × Oplog :=
  (receiveOpsAdmission E V verified effects log source ops).getD (.error .admissionConflict, log)

/-- `reconcile_pending_ops` as an oplog call. Its passes suffice, so it always returns. -/
def reconcileCall (V : View) (log : Oplog) : Result (BTreeSet OpId) × Oplog :=
  (reconcilePendingOps E V log).getD (.error .admissionConflict, log)

/-- A write to the active store. -/
def write (w : Write) : Result Unit × Node :=
  let (res, storage) := n.storage.write E (E.reserve n.writes) none w
  (res, { n with storage := storage, writes := n.writes + 1 })

/-- The node once the evidence of its active store was replaced, or the write refused. -/
def withEvidence {α : Type} (res : Result α) (f : α → Evidence) : Result Unit × Node :=
  let ticked := { n with writes := n.writes + 1 }
  match res with
  | .error e => (.error e, ticked)
  | .ok a => (.ok (), { ticked with storage :=
      { n.storage with inner := { n.storage.inner with toEvidence := f a } } })

/-! ## Bootstrap of unknown topics -/

/-- `forward_effects`: the positions of the entries for every selected peer but the source and this node. -/
def forwardEffects : ReceiveEffects := fun source entries state =>
  let target := entries.foldl (fun (clock : ActorClock) e => clock.observe e.2.actorId e.2.actorSeq) ∅
  .ok (clockObligations ((peers state.topicId state).filter fun p => decide (some p ≠ source ∧ p ≠ n.peer))
    state.topicId target)

/-- `activation_effects`: the whole staged clock for every selected peer but the source and this node. -/
def activationEffects (source : PeerId) (state : TopicState) (clock : ActorClock) : AdmissionEffects :=
  clockObligations ((peers state.topicId state).filter fun p => decide (p ≠ source ∧ p ≠ n.peer))
    state.topicId clock

/-- `provisional_of`. -/
def provisionalOf (source : PeerId) (t : TopicId) : Option ProvisionalTopic :=
  n.storage.provisionalTopics.find? fun p => decide (p.source = source ∧ p.topicId = t)

/-- The store after a namespace was ended, if it is still as it was read. -/
def discard (p : ProvisionalTopic) : Bool × Node :=
  let (ended, storage) := n.storage.discardNamespace p
  (ended, { n with storage := storage })

/-- The activation of a staged state, with what follows it: buffered ops that moved and became ready are admitted,
and a topic that another namespace activated meanwhile is active as well. -/
def activate (p : ProvisionalTopic) (state : TopicState) (effects : AdmissionEffects) : Result Bootstrap × Node :=
  let (res, storage) := n.storage.activateNamespace (E.reserve n.writes) p state effects
  let ticked := { n with writes := n.writes + 1, storage := storage }
  match res with
  | .ok () =>
    -- an error of the drain is logged: what it left is admitted by a later pass
    (.ok (.active ∅), (ticked.through none (reconcileCall E) none).2)
  | .error .admissionConflict =>
    if (ticked.storage.inner.topicState p.topicId).isNone then (.error .admissionConflict, ticked)
    else
      match (ticked.provisionalOf p.source p.topicId).filter fun current =>
          decide (current.session = p.session ∧ current.genesis = p.genesis) with
      | none => (.ok (.active ∅), ticked)
      | some current =>
        match ticked.discard current with
        | (true, n) => (.ok (.active ∅), n)
        | (false, n) => (.error .admissionConflict, n)
  | .error e => (.error e, ticked)

/-- `activate_proven`. -/
def activateProven (p : ProvisionalTopic) (source : PeerId) : Result Bootstrap × Node :=
  match n.storage.viewed p.viewKey with
  | none => (.error .staleIncarnation, n)
  | some ns =>
    match ns.inner.topicState p.topicId with
    | none => (.ok (.staged (stagedOf p ns.inner)), n)
    | some state =>
      if ¬(n.peer ∈ state.members ∧ source ∈ state.members) ∧ p.activating = false then
        (.ok (.staged (stagedOf p ns.inner)), n)
      else n.activate E p state (n.activationEffects peers source state (ns.inner.clockOf p.topicId))

/-- `expire_bootstraps`. -/
def expireBootstraps (now : ℕ) : Node :=
  n.storage.provisionalTopics.foldl (fun n p =>
    if p.activating = false ∧ p.updatedMs < now - stagedIdleMs then (n.discard p).2 else n) n

/-- The order in which stagings of one topic yield: fewer bytes first, then the smaller source. -/
def rank (p : ProvisionalTopic) : ℕ ×ₗ PeerId := toLex (p.bytes, p.source)

/-- The stagings `make_room` discards of those it read, weakest first. -/
def roomFor (limits : StagingLimits) (held : List ProvisionalTopic) (current : ProvisionalTopic) (incoming : ℕ) :
    Result (List ProvisionalTopic) :=
  let sum (l : List ProvisionalTopic) : ℕ := (l.map (·.bytes)).foldl saturatingAdd 0
  if saturatingAdd (sum (held.filter fun p => decide (p.source = current.source))) incoming >
      limits.sourceBytes then
    .error (.stagingCapacity "bootstrap staging byte quota exceeded for source")
  else
    let own := ((held.find? fun p => decide (p.topicId = current.topicId ∧ p.source = current.source)).map
      rank).getD (toLex (0, current.source))
    let losers := (held.filter fun p => decide (p.topicId = current.topicId ∧ p.source ≠ current.source ∧
      p.activating = false ∧ rank p < own)).insertionSort fun p q => rank p ≤ rank q
    match reclaimCount (sum held) incoming limits.totalBytes (losers.map (·.bytes)) with
    | none => .error (.stagingCapacity "bootstrap staging byte budget is full")
    | some count => .ok (losers.take count)

/-- `make_room`. -/
def makeRoom (current : ProvisionalTopic) (incoming : ℕ) : Result Unit × Node :=
  match roomFor n.storage.limits n.storage.provisionalTopics current incoming with
  | .error e => (.error e, n)
  | .ok losers => (.ok (), losers.foldl (fun n p => (n.discard p).2) n)

/-- The bytes a fragment adds to a namespace. -/
def incomingBytes (inner : MemoryInner) (ops : List Op) : ℕ :=
  (ops.foldl (fun (acc : ℕ × BTreeSet OpId) op =>
    if op.id ∈ acc.2 then acc
    else
      let counted := acc.2.insert op.id
      if inner.depResolvable op.id || inner.pendingRecords.contains op.id then (acc.1, counted)
      else (acc.1 + E.opBytes op, counted)) (0, ∅)).1

/-- `open_provisional`. -/
def openProvisional (source : PeerId) (t : TopicId) (genesis : OpId) (now : ℕ) : Result ProvisionalTopic × Node :=
  let ticked := { n with writes := n.writes + 1 }
  match n.storage.openNamespace (E.reserve n.writes 0) source t genesis now with
  | .error e => (.error e, ticked)
  | .ok (p, storage) => (.ok p, { ticked with storage := storage })

/-- Admit a fragment into its namespace and activate the topic when that proves membership. -/
def stage (p : ProvisionalTopic) (source : PeerId) (ops : List Op) (verified : BTreeSet OpId)
    (now : ℕ) : Result Bootstrap × Node :=
  match n.storage.viewed p.viewKey with
  | none => (.error .staleIncarnation, n)
  | some ns =>
    match n.makeRoom p (incomingBytes E ns.inner ops) with
    | (.error e, n) => (.error e, n)
    | (.ok (), n) =>
      let (admitted, n) := n.through (some p.viewKey) (receiveCall E verified none (some source) ops) none
      let n := { n with storage := n.storage.touchNamespace p now }
      let (outcome, n) := n.activateProven E peers p source
      let outcome := outcome.map fun
        | .active _ => .active (verified.filter fun id => n.storage.inner.depResolvable id)
        | .staged topic => .staged topic
      match admitted, outcome with
      | .ok _, outcome => (outcome, n)
      | .error (.admissionCommitted _ e), .ok _ => (.error e, n)
      | .error e, .ok _ => (.error e, n)
      | .error _, .error e => (.error e, n)

/-- The genesis of a fragment names this node and its source. -/
def namesBoth (source : PeerId) (genesis : Option Op) : Bool :=
  match genesis.bind initialPeersOf with
  | some named => decide (n.peer ∈ named ∧ source ∈ named)
  | none => false

/-- `bootstrap_unknown`. -/
def bootstrapUnknown (source : PeerId) (t : TopicId) (ops : List Op) (verified : BTreeSet OpId) (now : ℕ) :
    Result Bootstrap × Node :=
  if (n.storage.inner.topicState t).isSome then (.ok (.active ∅), n)
  else
    let n := n.expireBootstraps now
    let genesis := ops.find? isStructuralGenesis
    -- such a genesis proves nothing more when staged
    if n.namesBoth source genesis = true ∧ n.storage.provisionalTopics.all fun p => decide (p.topicId ≠ t) then
      (.ok (.active ∅), n)
    else
      match n.provisionalOf source t, genesis.map (·.id) with
      | some current, fragment =>
        if current.activating then n.activateProven E peers current current.source
        else
          match fragment with
          | none => n.stage E peers current source ops verified now
          | some genesis =>
            if genesis < current.genesis then
              match n.discard current with
              | (false, n) => (.error .admissionConflict, n)
              | (true, n) =>
                match n.openProvisional E source t genesis now with
                | (.error e, n) => (.error e, n)
                | (.ok p, n) => n.stage E peers p source ops verified now
            else if current.genesis < genesis then (.error .staleIncarnation, n)
            else n.stage E peers current source ops verified now
      | none, some genesis =>
        match n.openProvisional E source t genesis now with
        | (.error e, n) => (.error e, n)
        | (.ok p, n) => n.stage E peers p source ops verified now
      -- nothing anchors the fragment to a branch yet
      | none, none => (.ok (.staged {}), n)

/-- `finish_bootstrap`. -/
def finishBootstrap (source : PeerId) (t : TopicId) : Result Bool × Node :=
  if (n.storage.inner.topicState t).isSome then (.ok true, n)
  else
    match n.provisionalOf source t with
    | none => (.ok false, n)
    | some p =>
      let (outcome, n) := n.activateProven E peers p source
      (outcome.map fun | .active _ => true | .staged _ => false, n)

/-- `resume_bootstraps`: a namespace that cannot be activated is left for a later attempt. -/
def resumeBootstraps : Node :=
  n.storage.provisionalTopics.foldl (fun n p => (n.activateProven E peers p p.source).2) n

/-! ## Receiving -/

/-- `receive_sync_outcome`, up to the frontier of its ack. -/
def receiveSyncOutcome (source : PeerId) (t : TopicId) (ops : List Op) (now : ℕ) : Result ReceiveOutcome × Node :=
  if ops.any fun op => decide (op.body.topicId ≠ t) then (.error .topicMismatch, n)
  else
    match (ops.forM E.validate : Result Unit) with
    | .error e => (.error e, n)
    | .ok () =>
      let verified : BTreeSet OpId := ExtTreeSet.ofList (ops.map (·.id)) compare
      match n.bootstrapUnknown E peers source t ops verified now with
      | (.error e, n) => (.error e, n)
      | (.ok (.staged topic), n) => (.ok (.staged topic), n)
      | (.ok (.active held), n) =>
        let (res, n) := n.through none
          (receiveCall E verified (some (n.forwardEffects peers)) (some source) ops) none
        -- draining may have admitted ops of other topics, for which the ack does not speak
        let ofTopic (id : OpId) : Bool :=
          decide (id ∈ verified) || n.storage.inner.metas[id]?.any fun m => decide (m.topicId = t)
        (res.map fun admitted => .acked (admitted.accepted.filter ofTopic ∪ held ∩ verified) admitted.evictions,
          n)

/-! ## Events -/

/-- Upkeep of the active store that admits nothing. -/
inductive Upkeep
  | resetTopic (t : TopicId)
  | removePendingOp (id : OpId)
  | purgePendingWaiters (dep : OpId)
  | rejectPendingSubtree (id : OpId)
  | expirePending (now maxIdle : ℕ)
  | putSyncObligation (o : SyncObligation) (expected : Option OpId)
  | clearPeerSyncState (peer : PeerId) (t : TopicId) (expected : Option OpId)
  | sealTopic (t : TopicId)
  | unsealTopic (t : TopicId)
  | clearEviction (key : EvictionKey)

/-- The storage write of some upkeep. -/
def Upkeep.toWrite : Upkeep → Write
  | .resetTopic t => .resetTopic t
  | .removePendingOp id => .removePendingOp id
  | .purgePendingWaiters dep => .purgePendingWaiters dep
  | .rejectPendingSubtree id => .rejectPendingSubtree id
  | .expirePending now maxIdle => .expirePending now maxIdle
  | .putSyncObligation o expected => .putSyncObligation o expected
  | .clearPeerSyncState peer t expected => .clearPeerSyncState peer t expected
  | .sealTopic t => .sealTopic t
  | .unsealTopic t => .unsealTopic t
  | .clearEviction key => .clearEviction key

end Node

/-- A call on a node. -/
inductive NodeOp
  | receiveOps (source : Option PeerId) (ops : List Op) (bound : Option (TopicId × OpId))
  | receiveSync (source : PeerId) (t : TopicId) (ops : List Op) (now : ℕ)
  | createLocal (t : TopicId) (a : ActorId) (payload : TopicPayload) (signer : Signer) (effects : LocalEffects)
  | createGenesisWithEvent (t : TopicId) (a : ActorId) (genesis : TopicGenesis) (event : EventEnvelope)
  (signer : Signer)
      (effects : LocalEffects)
  | reconcile
  | quarantine (t : TopicId)
  | recheck
  | finishBootstrap (source : PeerId) (t : TopicId)
  | resumeBootstraps
  | expireBootstraps (now : ℕ)
  | applyAck (signed : Result Unit) (ack : SyncAck)
  | applyAcks (acks : List (Result Unit × SyncAck))
  | recordPeerSynced (whole : Bool) (member : PeerId) (t : TopicId)
  | recordFingerprint (whole : Bool) (member : PeerId) (t : TopicId) (fingerprint : Digest)
  | upkeep (u : Node.Upkeep)

/-- A call with the sync peers at that moment. -/
structure NodeEvent where
  op : NodeOp
  peers : SyncPeers := fun _ _ => []

/-- The node after a call, and whether it failed. -/
def Node.apply (E : Env) (n : Node) (ev : NodeEvent) : Result Unit × Node :=
  let done {α : Type} (res : Result α × Node) : Result Unit × Node := (res.1.map fun _ => (), res.2)
  match ev.op with
  | .receiveOps source ops bound => done (n.through none (Node.receiveCall E ∅ none source ops) bound)
  | .receiveSync source t ops now => done (n.receiveSyncOutcome E ev.peers source t ops now)
  | .createLocal t a payload signer effects =>
    done (n.through none (fun V log => log.createLocal E V t a payload signer effects) none)
  | .createGenesisWithEvent t a genesis event signer effects =>
    done (n.through none (fun V log => log.createGenesisWithEvent E V t a genesis event signer effects) none)
  | .reconcile => done (n.through none (Node.reconcileCall E) none)
  | .quarantine t => done (n.through none (fun V log => log.quarantineOrphans E V t) none)
  | .recheck => done (n.through none (fun _ log => (.ok (), log.recheckTopics)) none)
  | .finishBootstrap source t => done (n.finishBootstrap E ev.peers source t)
  | .resumeBootstraps => (.ok (), n.resumeBootstraps E ev.peers)
  | .expireBootstraps now => (.ok (), n.expireBootstraps now)
  | .applyAck signed ack =>
    n.withEvidence (applyAck E n.peer (E.reserve n.writes) n.storage.inner signed ack) id
  | .applyAcks acks =>
    n.withEvidence (.ok (applyAcks E n.peer (E.reserve n.writes) n.storage.inner acks)) (·.2)
  | .recordPeerSynced whole member t =>
    n.withEvidence (recordPeerSynced (E.reserve n.writes) n.storage.inner whole member t) id
  | .recordFingerprint whole member t fingerprint =>
    n.withEvidence (recordFingerprint E (E.reserve n.writes) n.storage.inner whole member t fingerprint) (·.2)
  | .upkeep u => n.write E u.toWrite

/-- The node after a call. -/
def Node.step (E : Env) (n : Node) (ev : NodeEvent) : Node := (n.apply E ev).2

/-- The node after a sequence of calls. -/
def Node.run (E : Env) (n : Node) (evs : List NodeEvent) : Node := evs.foldl (Node.step E) n

end Irokle
