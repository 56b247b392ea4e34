import Irokle.Proof.Creation
import Irokle.Proof.Quarantine
import Irokle.Proof.Storage
import Irokle.Spec.Node

/-!
# Every reachable node is sound

A call on a node is a sequence of moves: calls on the oplog over one set of records, operations of
the store that admit nothing, and replaced evidence. Each move keeps the records, the buffers and the
projections sound, so they are sound in every reachable node.

* `Node.step_moves` — the moves of one call;
* `NodeOK.move` — one move keeps the invariant;
* `nodeOK_run` — it holds of every node reached from a fresh one.
-/

namespace Irokle

open Std Outcome Causal Relation

/-- What a call on an oplog can do: it keeps the invariant, and what it does to the records is reported. -/
def LogStep (E : Env) (log log' : Oplog) : Prop :=
  ∀ K, LogOK E K (fun _ => True) log → LogOK E K (fun _ => True) log' ∧
    ∃ accepted evictions, Reported E (fun _ => True) log.inner accepted evictions log'.inner

/-- The operations of a store that a node uses beside its oplog: they admit nothing by themselves. -/
def StorageOp.Upkeep : StorageOp → Prop
  | .write none w => ∃ u : Node.Upkeep, w = u.toWrite
  | .write (some _) _ => False
  | _ => True

/-- Every op the records hold or buffer is of the topic. -/
structure Confined (t : TopicId) (inner : MemoryInner) : Prop where
  stored : ∀ (id : OpId) op, inner.ops[id]? = some op → op.body.topicId = t
  pending : ∀ (id : OpId) op, inner.pendingOps[id]? = some op → op.body.topicId = t

/-- A call that leaves records of one topic alone in that. -/
def Confines (E : Env) (t : TopicId) (log log' : Oplog) : Prop :=
  ∀ K, LogOK E K (fun _ => True) log → Confined t log.inner → Confined t log'.inner

/-- What a node can do between two states. -/
inductive NodeMove (E : Env) (n : Node) : Node → Prop
  | ticked (writes : ℕ) : NodeMove E n { n with writes := writes }
  | called {view : Option ViewKey} {inner : MemoryInner} {log : Oplog} (hlock : n.storage.lock view = .ok inner)
      (h : ReflTransGen (LogStep E) (n.oplog inner) log)
      (hview : ∀ v, view = some v → Confines E v.topicId (n.oplog inner) log) : NodeMove E n (n.settle view log)
  | stored (ev : StorageEvent) (h : ev.op.Upkeep) (writes : ℕ) :
      NodeMove E n { n with storage := n.storage.step E ev, writes := writes }

/-- Any number of moves. -/
abbrev NodeMoves (E : Env) : Node → Node → Prop := ReflTransGen (NodeMove E)

/-- The records of a node are sound: the active ones and those of every namespace. -/
structure NodeOK (E : Env) (n : Node) : Prop where
  main : LogOK E False (fun _ => True) (n.oplog n.storage.inner)
  staged : ∀ (k : PeerId × TopicId) ns, n.storage.namespaces[k]? = some ns →
    LogOK E True (fun _ => True) (n.oplog ns.inner)
  keys : ∀ (k : PeerId × TopicId) ns, n.storage.namespaces[k]? = some ns → ns.topic.key = k
  sessions : ∀ (k : PeerId × TopicId) ns, n.storage.namespaces[k]? = some ns →
    ns.topic.session ≤ n.storage.sessions
  activating : ∀ (k : PeerId × TopicId) ns, n.storage.namespaces[k]? = some ns → ns.topic.activating = false
  confined : ∀ (k : PeerId × TopicId) ns, n.storage.namespaces[k]? = some ns → Confined k.2 ns.inner

variable {E : Env} {V : View} {K : Prop} {P : Op → Prop} {n n' : Node} {log log' : Oplog} {s s' : MemoryStorage}
  {inner : MemoryInner} {view : Option ViewKey} {reserve : ℕ → Result Unit} {p : ProvisionalTopic}
  {expected : TopicState} {ns : Namespace} {effects : AdmissionEffects} {peers : SyncPeers}

/-! ## Calls on the oplog -/

theorem Idle.logStep (h : Idle log log') : LogStep E log log' :=
  fun _ L => ⟨h.logOK L, ∅, [], h.quiet.reported⟩

theorem LogStep.of_receives {res : Result Admitted}
    (h : ∀ K, LogOK E K (fun _ => True) log → Receives E K (fun _ => True) log res log') :
    LogStep E log log' := fun K L => ⟨(h K L).1, (h K L).exists_reported⟩

/-- A receive returns, and is one step of its oplog. -/
theorem receiveOpsAdmission_logStep {verified : BTreeSet OpId} {effects : Option ReceiveEffects}
    {source : Option PeerId} {ops : List Op} {res : Result Admitted}
    (hver : ∀ op ∈ ops, op.id ∈ verified → E.Valid op) (heff : EffectsOK effects)
    (h : receiveOpsAdmission E V verified effects log source ops = some (res, log')) : LogStep E log log' := by
  refine LogStep.of_receives (fun K L => ?_ : ∀ K, LogOK E K (fun _ => True) log →
    Receives E K (fun _ => True) log res log')
  obtain ⟨res', log₁, h', hspec, -⟩ := receiveOpsAdmission_spec V source L (fun _ _ => trivial) hver heff
  rw [h] at h'
  cases h'
  exact hspec

theorem Node.receiveCall_steps {verified : BTreeSet OpId} {effects : Option ReceiveEffects}
    {source : Option PeerId} {ops : List Op} (V : View) (log : Oplog)
    (hver : ∀ op ∈ ops, op.id ∈ verified → E.Valid op) (heff : EffectsOK effects) :
    ReflTransGen (LogStep E) log (Node.receiveCall E verified effects source ops V log).2 := by
  unfold Node.receiveCall
  cases h : receiveOpsAdmission E V verified effects log source ops with
  | none => exact .refl
  | some res => exact .single (receiveOpsAdmission_logStep hver heff h)

/-- A receive of ops of one topic keeps records of that topic to it. -/
theorem Node.receiveCall_confines {verified : BTreeSet OpId} {effects : Option ReceiveEffects}
    {source : Option PeerId} {ops : List Op} {t : TopicId} (V : View) (log : Oplog)
    (hver : ∀ op ∈ ops, op.id ∈ verified → E.Valid op) (heff : EffectsOK effects)
    (htopic : ∀ op ∈ ops, op.body.topicId = t) :
    Confines E t log (Node.receiveCall E verified effects source ops V log).2 := by
  intro K L C
  have L' : LogOK E K (fun op => op.body.topicId = t) log :=
    ⟨L.records, L.buffer, L.cache, fun id op hop => ⟨C.pending id op hop, (L.pending id op hop).2⟩,
      L.waits, L.apart⟩
  obtain ⟨res, log', h, hreceives, -⟩ := receiveOpsAdmission_spec V source L' htopic hver heff
  obtain ⟨accepted, evictions, hreported⟩ := hreceives.exists_reported
  unfold Node.receiveCall
  rw [h]
  refine ⟨fun id op hop => ?_, fun id op hop => (hreceives.1.pending id op hop).1⟩
  rcases hreported.stored id op hop with ⟨-, htop⟩ | hold
  · exact htop
  · exact C.stored id op hold

/-- Every pass over the buffer is a step. -/
theorem Node.reconcileCall_steps (V : View) (log : Oplog) :
    ReflTransGen (LogStep E) log (Node.reconcileCall E V log).2 := by
  have key : ∀ (fuel : ℕ) (log : Oplog) (accepted : BTreeSet OpId) res log',
      reconcilePasses E V fuel log accepted = some (res, log') → ReflTransGen (LogStep E) log log' := by
    intro fuel
    induction fuel with
    | zero => intro log accepted res log' h; cases h
    | succ fuel ih =>
      intro log accepted res log' h
      unfold reconcilePasses at h
      cases hpass : receiveOps E V log none [] with
      | none => rw [hpass] at h; cases h
      | some pass =>
        obtain ⟨pass, log₁⟩ := pass
        have hstep : LogStep E log log₁ := receiveOpsAdmission_logStep (by simp) (by intro; simp) hpass
        rw [hpass] at h
        cases pass with
        | error e => cases h; exact .single hstep
        | ok pass =>
          dsimp only at h
          split at h
          · exact .head hstep (ih _ _ _ _ h)
          · cases h; exact .single hstep
  unfold Node.reconcileCall
  cases h : reconcilePendingOps E V log with
  | none => exact .refl
  | some res => exact key _ _ _ _ _ h

theorem createLocal_logStep (V : View) (log : Oplog) (t : TopicId) (a : ActorId) (payload : TopicPayload)
    (signer : Signer) (effects : LocalEffects) :
    LogStep E log (log.createLocal E V t a payload signer effects).2 := by
  intro K L
  rcases createLocal_spec V t a payload signer effects L with ⟨res, log', h, C⟩ | ⟨e, log', h, hidle⟩
  · rw [h]
    exact ⟨C.ok, _, _, C.reported⟩
  · rw [h]
    exact hidle.logStep K L

theorem createGenesisWithEvent_logStep (V : View) (log : Oplog) (t : TopicId) (a : ActorId)
    (genesis : TopicGenesis) (event : EventEnvelope) (signer : Signer) (effects : LocalEffects) :
    LogStep E log (log.createGenesisWithEvent E V t a genesis event signer effects).2 := by
  intro K L
  rcases createGenesisWithEvent_spec V t a genesis event signer effects L with
    ⟨res, log', h, C⟩ | ⟨e, log', h, hidle⟩
  · rw [h]
    exact ⟨C.ok, _, _, C.reported⟩
  · rw [h]
    exact hidle.logStep K L

theorem quarantineOrphans_logStep (V : View) (log : Oplog) (t : TopicId) :
    LogStep E log (log.quarantineOrphans E V t).2 := by
  intro K L
  rw [quarantineOrphans_eq L t]
  exact ⟨L, ∅, [], (Quiet.refl _).reported⟩

theorem recheckTopics_logStep (log : Oplog) : LogStep E log log.recheckTopics :=
  fun _ L => ⟨⟨L.records, L.buffer, fun id st h => by simp [Oplog.recheckTopics, MembershipCache.cleared] at h,
    L.pending, L.waits, L.apart⟩, ∅, [], (Quiet.refl _).reported⟩

/-! ## The invariant -/

/-- The invariant of an oplog speaks of its records and its projections. -/
theorem LogOK.of_inner (L : LogOK E K P log) (hinner : log'.inner = log.inner) (hcache : CacheOK E log'.cache) :
    LogOK E K P log' :=
  ⟨hinner ▸ L.records, hinner ▸ L.buffer, hcache, hinner ▸ L.pending, hinner ▸ L.waits, hinner ▸ L.apart⟩

theorem logSteps_ok (h : ReflTransGen (LogStep E) log log') (L : LogOK E K (fun _ => True) log) :
    LogOK E K (fun _ => True) log' := by
  induction h with
  | refl => exact L
  | tail _ hstep ih => exact (hstep K ih).1

theorem nodeOK_fresh (peer : PeerId) (limits : StagingLimits) :
    NodeOK E { peer := peer, storage := { limits := limits } } where
  main := logOK_empty
  staged := by simp
  keys := by simp
  sessions := by simp
  activating := by simp
  confined := by simp

theorem NodeOK.storageOK (H : NodeOK E n) : StorageOK False n.storage :=
  ⟨H.main.buffer, fun k ns hns => (H.staged k ns hns).buffer, H.keys, H.sessions⟩

/-- The node with another store, each set of records sound. -/
theorem NodeOK.withStorage {writes : ℕ} (H : NodeOK E n) (hmain : LogOK E False (fun _ => True) (n.oplog s.inner))
    (hall : ∀ (k : PeerId × TopicId) ns, s.namespaces[k]? = some ns →
      LogOK E True (fun _ => True) (n.oplog ns.inner) ∧ ns.topic.key = k ∧ ns.topic.session ≤ s.sessions ∧
      ns.topic.activating = false ∧ Confined k.2 ns.inner) :
    NodeOK E { n with storage := s, writes := writes } where
  main := hmain.of_inner rfl H.main.cache
  staged k ns hns := (hall k ns hns).1.of_inner rfl H.main.cache
  keys k ns hns := (hall k ns hns).2.1
  sessions k ns hns := (hall k ns hns).2.2.1
  activating k ns hns := (hall k ns hns).2.2.2.1
  confined k ns hns := (hall k ns hns).2.2.2.2

/-- A namespace with other records is sound when they are. -/
theorem NodeOK.namespace (H : NodeOK E n) {k : PeerId × TopicId} {ns' : Namespace} {sessions : ℕ}
    (hns : n.storage.namespaces[k]? = some ns) (hup : Updates ns inner ns')
    (hlog : LogOK E True (fun _ => True) (n.oplog inner)) (hconfined : Confined k.2 inner)
    (hle : n.storage.sessions ≤ sessions) : LogOK E True (fun _ => True) (n.oplog ns'.inner) ∧
      ns'.topic.key = k ∧ ns'.topic.session ≤ sessions ∧ ns'.topic.activating = false ∧
      Confined k.2 ns'.inner := by
  obtain rfl := hup.inner
  exact ⟨hlog, hup.key.trans (H.keys k ns hns), hup.session ▸ (H.sessions k ns hns).trans hle,
    hup.activating.trans (H.activating k ns hns), hconfined⟩

/-- The node with other active records. -/
theorem NodeOK.withMain {writes : ℕ} (H : NodeOK E n) (hmain : LogOK E False (fun _ => True) (n.oplog inner)) :
    NodeOK E { n with storage := { n.storage with inner := inner }, writes := writes } :=
  H.withStorage hmain fun k ns hns =>
    ⟨H.staged k ns hns, H.keys k ns hns, H.sessions k ns hns, H.activating k ns hns, H.confined k ns hns⟩

/-- A call through a handle keeps the node sound. -/
theorem NodeOK.settle (H : NodeOK E n) (hlock : n.storage.lock view = .ok inner)
    (h : ∀ K, LogOK E K (fun _ => True) (n.oplog inner) → LogOK E K (fun _ => True) log)
    (hview : ∀ v, view = some v → Confines E v.topicId (n.oplog inner) log) : NodeOK E (n.settle view log) := by
  cases view with
  | none =>
    cases hlock
    have hmain := h False H.main
    exact ⟨hmain.of_inner rfl hmain.cache, fun k ns hns => (H.staged k ns hns).of_inner rfl hmain.cache,
      H.keys, H.sessions, H.activating, H.confined⟩
  | some v =>
    obtain ⟨ns, hns, rfl⟩ := lock_some.1 hlock
    have hv := (MemoryStorage.viewed_eq_some.1 hns).1
    have hstaged := h True (H.staged _ _ hv)
    have H' : NodeOK E { n with cache := log.cache, writes := log.writes, debug := log.debug } :=
      ⟨H.main.of_inner rfl hstaged.cache, fun k ns hns => (H.staged k ns hns).of_inner rfl hstaged.cache,
        H.keys, H.sessions, H.activating, H.confined⟩
    unfold Node.settle
    obtain ⟨ns', hup, hs⟩ := MemoryStorage.release_view log.inner _ hns
    rw [hs]
    refine H'.withStorage H'.main fun k ns₁ hns₁ => ?_
    rcases BTreeMap.of_getElem?_insert hns₁ with ⟨rfl, rfl⟩ | ⟨-, hold⟩
    · exact H'.namespace hv hup (hstaged.of_inner rfl hstaged.cache)
        (hview v rfl True (H.staged _ _ hv) (H.confined _ _ hv)) le_rfl
    · exact H'.namespace hold ⟨rfl, rfl, rfl, rfl, rfl, rfl⟩ (H'.staged k ns₁ hold) (H.confined k ns₁ hold) le_rfl

/-- Upkeep of one set of records keeps it sound. -/
theorem Node.Upkeep.run_ok (u : Node.Upkeep) (reserve : ℕ → Result Unit) (quota : Option StagingQuota)
    (L : LogOK E K P log) :
    LogOK E K P { log with inner := (u.toWrite.run E reserve quota log.inner).2 } := by
  have shrunk : ∀ {p : PendingIndex}, BufferOK K log.inner.toRecords p → Thinned log.inner.toPendingIndex p →
      LogOK E K P { log with inner := { log.inner with toPendingIndex := p } } := 
    fun B h => (L.shrink B h).of_inner rfl L.cache
  have kept : ∀ {inner : MemoryInner}, inner.toRecords = log.inner.toRecords →
    inner.toPendingIndex = log.inner.toPendingIndex →
      LogOK E K P { log with inner := inner } := by
    intro inner hrecords hpending
    exact ⟨hrecords ▸ L.records, hrecords ▸ hpending ▸ L.buffer, L.cache, hpending ▸ L.pending,
      hpending ▸ L.waits, hrecords ▸ hpending ▸ L.apart⟩
  cases u with
  | resetTopic t =>
    unfold Node.Upkeep.toWrite Write.run
    dsimp only
    rcases resetTopicLocked_spec L.buffer t (reserve 0) with ⟨e, -, hres⟩ | ⟨k, inner₁, -, hres, R₁⟩
    · rw [hres]
      exact L
    · rw [hres]
      have hrecords : RecordsOK E inner₁.toRecords := by
        rw [R₁.records]
        exact L.records.resetTopic t
      exact ⟨hrecords, R₁.buffer, L.cache, fun id op hop => L.pending id op (R₁.shrinks.ops id op hop),
        R₁.shrinks.waits L.waits, L.apart.reset L.records L.buffer.ok R₁⟩
  | removePendingOp id =>
    obtain ⟨p', h, B', R⟩ := L.buffer.removePendingOp id
    show LogOK E K P { log with inner := { log.inner with toPendingIndex := (log.inner.removePendingOp id).2 } }
    rw [h]
    exact shrunk B' R.thinned
  | purgePendingWaiters dep =>
    obtain ⟨k, p', h, B', R⟩ := L.buffer.purge dep
    show LogOK E K P { log with inner :=
      { log.inner with toPendingIndex := (log.inner.purgePendingWaiters dep).2 } }
    rw [h]
    exact shrunk B' R.thinned
  | rejectPendingSubtree id =>
    show LogOK E K P { log with inner :=
      { log.inner with toPendingIndex := (log.inner.rejectPendingSubtree (reserve 0) id).2 } }
    rcases L.buffer.reject (reserve 0) id with ⟨e, -, h⟩ | ⟨k, p', h, B', -, T⟩
    · rw [h]
      exact L
    · rw [h]
      exact shrunk B' T
  | expirePending now maxIdle =>
    obtain ⟨k, p', h, B', T⟩ := L.buffer.expire now maxIdle
    show LogOK E K P { log with inner :=
      { log.inner with toPendingIndex := (log.inner.expirePending now maxIdle).2 } }
    rw [h]
    exact shrunk B' T
  | putSyncObligation | sealTopic =>
    exact MemoryInner.of_update (Q := fun inner => LogOK E K P { log with inner := inner }) L fun _ _ =>
      kept rfl rfl
  | clearPeerSyncState | unsealTopic | clearEviction => exact kept rfl rfl

section Activation

variable {changes : BTreeMap (PeerId × ObligationKind) SyncObligation} {moves : List (ℕ × OpId × BTreeSet OpId)}

theorem Activation.unknown (A : Activation s reserve p expected effects ns changes moves s') :
    s.inner.toRecords.topicState p.topicId = none := by
  unfold Records.topicState
  rw [A.absent]
  rfl

variable (H : NodeOK E n) (A : Activation n.storage reserve p expected effects ns changes moves s')

include H A

theorem Activation.copiedTopic :
    CopiedTopic E ns.inner.toRecords n.storage.inner.toRecords p.topicId s'.inner.toRecords := by
  have hns := H.staged _ _ (MemoryStorage.viewed_eq_some.1 A.viewed).1
  rw [A.eq]
  exact hns.records.copiedTopic H.main.records A.unknown A.state

/-- A namespace holds one topic, so all it holds is copied. -/
theorem Activation.depResolvable_eq (d : OpId) :
    s'.inner.depResolvable d = resolvableWith ns.inner n.storage.inner d := by
  have hviewed := (MemoryStorage.viewed_eq_some.1 A.viewed).1
  have hns : LogOK E True (fun _ => True) (n.oplog ns.inner) := H.staged _ _ hviewed
  have hrecords : RecordsOK E ns.inner.toRecords := hns.records
  have hconfined := H.confined _ _ hviewed
  have C := A.copiedTopic H
  have hlisted : d ∈ ns.inner.listOpIds p.topicId ↔ ns.inner.depResolvable d = true := by
    rw [hrecords.topicOps, hrecords.depResolvable_iff]
    constructor
    · rintro ⟨op, hop, rfl⟩
      exact ⟨op, hop.1⟩
    · rintro ⟨op, hop⟩
      have hid := hrecords.opId d op hop
      exact ⟨op, ⟨by rw [hid]; exact hop, hconfined.stored d op hop⟩, hid⟩
  unfold resolvableWith
  by_cases hd : d ∈ ns.inner.listOpIds p.topicId
  · have hheld := hlisted.1 hd
    rw [hheld, Bool.or_true]
    unfold Records.depResolvable at hheld ⊢
    simp only [ExtTreeMap.contains_eq_isSome_getElem?] at hheld ⊢
    rw [C.ops, C.metas, if_pos hd, if_pos hd]
    exact hheld
  · have hno : ns.inner.depResolvable d = false := Bool.eq_false_iff.2 fun h => hd (hlisted.2 h)
    rw [hno, Bool.or_false]
    unfold Records.depResolvable
    simp only [ExtTreeMap.contains_eq_isSome_getElem?]
    rw [C.ops, C.metas, if_neg hd, if_neg hd]

/-- **An activation keeps the active buffer apart**: a ready op of the topic would have made it known before. -/
theorem Activation.apart : Apart E s'.inner.toRecords s'.inner.toPendingIndex := by
  have hviewed := (MemoryStorage.viewed_eq_some.1 A.viewed).1
  have hlog := H.staged _ _ hviewed
  have hns : RecordsOK E ns.inner.toRecords := hlog.records
  have C := A.copiedTopic H
  have hstate : s'.inner.toRecords.topicState p.topicId = some expected := by
    rw [C.state, if_pos rfl]
    exact A.state
  obtain ⟨m, I, -⟩ := A.moveInv H.storageOK
  refine ⟨fun id rec hrec hempty => ?_, fun id op rec hop hrec d hd hno => ?_⟩ <;> by_cases hid : id ∈ m.moved
  · obtain ⟨_, _, -, -, M⟩ := I.moved id hid
    rw [A.depResolvable_eq H]
    exact M.unresolved
  · have hrec₀ : n.storage.inner.pendingRecords[id]? = some rec := (I.kept id hid).1.symm.trans hrec
    rw [A.depResolvable_eq H]
    unfold resolvableWith
    rw [Bool.or_eq_false_iff]
    refine ⟨H.main.apart.ready id rec hrec₀ hempty, Bool.eq_false_iff.2 fun hres => ?_⟩
    obtain ⟨x, hx⟩ := hns.depResolvable_iff.1 hres
    obtain ⟨op, hop, hopid, -⟩ := H.main.buffer.ok.opOf id rec hrec₀
    obtain ⟨-, hvalid, hdeps⟩ := H.main.pending id op hop
    obtain rfl : op = x := hvalid.eq_of_id (hns.valid hx) (hopid.trans (hns.opId id x hx).symm)
    obtain ⟨d, hd⟩ := BTreeSet.exists_mem_of_ne_empty hdeps
    have ht : op.body.topicId = p.topicId := (H.confined _ _ hviewed).stored id op hx
    rcases H.main.apart.known id op rec hop hrec₀ d hd (by simp [hempty]) with ⟨st, hst⟩ | ⟨y, hy, hyd, hyt⟩
    · have hunknown := A.unknown
      rw [← ht] at hunknown
      rw [show (n.oplog n.storage.inner).inner.toRecords = n.storage.inner.toRecords from rfl, hunknown] at hst
      cases hst
    · obtain ⟨z, hz, hzd⟩ := hns.closed _ op (hns.mem_admitted hx) d hd
      have hzy : z = y := (hns.valid hz.1).eq_of_id hy ((show z.id = d from hzd).trans hyd.symm)
      exact hyt (hzy ▸ hz.2)
  · obtain ⟨staged, hstaged, hstop, -⟩ := I.moved_from hid hop hrec
    obtain ⟨k, nsk, hnsk, htopic, -, rfl⟩ := MemoryStorage.mem_branchStores.1 hstaged
    have ht : op.body.topicId = p.topicId := ((H.confined k nsk hnsk).pending id op hstop).trans htopic
    exact Or.inl ⟨expected, ht ▸ hstate⟩
  · refine (H.main.apart.known id op rec ((I.kept id hid).2.symm.trans hop)
      ((I.kept id hid).1.symm.trans hrec) d hd hno).mono fun st hst => ?_
    by_cases ht : op.body.topicId = p.topicId
    · exact ⟨expected, ht ▸ hstate⟩
    · exact ⟨st, by rw [C.state, if_neg ht]; exact hst⟩

/-- **An activation leaves sound active records**: the copied topic is the namespace's, and what it moves
waits for dependencies of its own. -/
theorem Activation.logOK : LogOK E False (fun _ => True) (n.oplog s'.inner) := by
  have hviewed := (MemoryStorage.viewed_eq_some.1 A.viewed).1
  have hns := H.staged _ _ hviewed
  obtain ⟨m, I, -⟩ := A.moveInv H.storageOK
  have hrecords : RecordsOK E s'.inner.toRecords := by
    rw [A.eq]
    exact hns.records.copyTopic H.main.records A.unknown A.state
  have hstores : ∀ staged ∈ n.storage.branchStores p.topicId p.genesis, LogOK E True (fun _ => True)
      (n.oplog staged) := by
    intro staged hstaged
    obtain ⟨k, ns, hns, -, -, rfl⟩ := MemoryStorage.mem_branchStores.1 hstaged
    exact H.staged k ns hns
  refine ⟨hrecords, A.buffer H.storageOK (fun h => h.elim), H.main.cache, fun id op hop => ?_,
    fun id op rec hop hrec d hd => ?_, A.apart H⟩
  · by_cases hid : id ∈ m.moved
    · obtain ⟨_, _, -, hrec, -⟩ := I.moved id hid
      obtain ⟨staged, hstaged, hstop, -⟩ := I.moved_from hid hop hrec
      exact (hstores staged hstaged).pending id op hstop
    · exact H.main.pending id op ((I.kept id hid).2.symm.trans hop)
  · by_cases hid : id ∈ m.moved
    · obtain ⟨staged, hstaged, hstop, old, hold, hsub⟩ := I.moved_from hid hop hrec
      exact (hstores staged hstaged).waits id op old hstop hold d (hsub d hd)
    · exact H.main.waits id op rec ((I.kept id hid).2.symm.trans hop) ((I.kept id hid).1.symm.trans hrec) d hd

end Activation

/-- **One move keeps a node sound.** -/
theorem NodeOK.move (H : NodeOK E n) (h : NodeMove E n n') : NodeOK E n' := by
  cases h with
  | ticked writes => exact H.withMain H.main
  | called hlock h hview => exact H.settle hlock (fun _ L => logSteps_ok h L) hview
  | stored ev hup writes =>
    have hstep := storageStep E n.storage ev
    generalize n.storage.step E ev = s' at hstep
    refine H.withStorage ?_ fun k ns' hns' => ?_
    · cases hstep with
      | main w reserve =>
        obtain ⟨u, rfl⟩ := hup
        exact (u.run_ok reserve none H.main).of_inner rfl H.main.cache
      | activated A => exact A.logOK H
      | _ => exact H.main
    · rcases hstep.namespace_cases hns' with
        ⟨ns, inner, hns, h, rfl | ⟨v, w, hop, -⟩⟩ | ⟨hinner, hkey, hsession, hactivating, hs⟩
      · exact H.namespace hns h (H.staged k ns hns) (H.confined k ns hns) hstep.sessions_le
      · rw [hop] at hup
        exact hup.elim
      · rw [hinner]
        exact ⟨logOK_empty.of_inner rfl H.main.cache, hkey, (hsession.trans hs.symm).le,
          hactivating, by simp, by simp⟩

theorem NodeOK.moves (H : NodeOK E n) (h : NodeMoves E n n') : NodeOK E n' := by
  induction h with
  | refl => exact H
  | tail _ hmove ih => exact ih.move hmove

/-! ## The moves of a call -/

theorem Node.through_main_moves {α : Type} (call : View → Oplog → Result α × Oplog)
    (bound : Option (TopicId × OpId)) (h : ∀ V log, ReflTransGen (LogStep E) log (call V log).2) :
    NodeMoves E n (n.through none call bound).2 :=
  .single (.called rfl (h _ _) fun v hv => by cases hv)

theorem Node.through_view_moves {α : Type} {call : View → Oplog → Result α × Oplog} (v : ViewKey)
    (bound : Option (TopicId × OpId)) (h : ∀ V log, ReflTransGen (LogStep E) log (call V log).2)
    (hview : ∀ V log, Confines E v.topicId log (call V log).2) :
    NodeMoves E n (n.through (some v) call bound).2 := by
  unfold Node.through
  cases hlock : n.storage.lock (some v) with
  | error e => exact .refl
  | ok inner =>
    refine .single (.called hlock (h _ _) fun w hw => ?_)
    cases hw
    exact hview _ _

theorem Node.discard_moves (p : ProvisionalTopic) : NodeMoves E n (n.discard p).2 :=
  .single (.stored ⟨.discardNamespace p, fun _ => .ok ()⟩ trivial n.writes)

theorem Node.foldl_moves {α : Type} {f : Node → α → Node} (h : ∀ n a, NodeMoves E n (f n a)) (l : List α)
    (n : Node) :
    NodeMoves E n (l.foldl f n) := by
  induction l generalizing n with
  | nil => exact .refl
  | cons a l ih => exact (h n a).trans (ih (f n a))

theorem Node.expireBootstraps_moves (now : ℕ) : NodeMoves E n (n.expireBootstraps now) := by
  refine Node.foldl_moves (fun n p => ?_) _ n
  split
  · exact Node.discard_moves p
  · exact .refl

theorem Node.makeRoom_moves (current : ProvisionalTopic) (incoming : ℕ) :
    NodeMoves E n (n.makeRoom current incoming).2 := by
  unfold Node.makeRoom
  split
  · exact .refl
  · exact Node.foldl_moves (fun n p => Node.discard_moves p) _ n

theorem Node.openProvisional_moves (source : PeerId) (t : TopicId) (genesis : OpId) (now : ℕ) :
    NodeMoves E n (n.openProvisional E source t genesis now).2 := by
  have hstored := NodeMove.stored (E := E) (n := n) ⟨.openNamespace source t genesis now, E.reserve n.writes⟩
    trivial (n.writes + 1)
  unfold MemoryStorage.step MemoryStorage.apply at hstored
  dsimp only at hstored
  unfold Node.openProvisional
  cases h : n.storage.openNamespace (E.reserve n.writes 0) source t genesis now with
  | error e => exact .single (.ticked _)
  | ok res =>
    rw [h] at hstored
    exact .single hstored

theorem Node.activate_moves (p : ProvisionalTopic) (state : TopicState) (effects : AdmissionEffects) :
    NodeMoves E n (n.activate E p state effects).2 := by
  have hstored := NodeMove.stored (E := E) (n := n) ⟨.activateNamespace p state effects, E.reserve n.writes⟩
    trivial (n.writes + 1)
  have hticked : NodeMoves E n { n with writes := n.writes + 1 } := .single (.ticked _)
  unfold MemoryStorage.step MemoryStorage.apply at hstored
  dsimp only at hstored
  unfold Node.activate
  rcases h : n.storage.activateNamespace (E.reserve n.writes) p state effects with ⟨res, storage⟩
  rw [h] at hstored
  dsimp only
  cases res with
  | ok _ => exact .head hstored (Node.through_main_moves _ none Node.reconcileCall_steps)
  | error e =>
    obtain ⟨-, -, rfl⟩ | ⟨⟨⟩, -⟩ := activateNamespace_cases h
    cases e
    case admissionConflict =>
      dsimp only
      split
      · exact hticked
      · split
        · exact hticked
        · rename_i current _
          have hdiscard : NodeMoves E _ (Node.discard { n with writes := n.writes + 1 } current).2 :=
            Node.discard_moves current
          split
          · rename_i h'
            rw [h'] at hdiscard
            exact hticked.trans hdiscard
          · rename_i h'
            rw [h'] at hdiscard
            exact hticked.trans hdiscard
    all_goals exact hticked

theorem Node.activateProven_moves (peers : SyncPeers) (p : ProvisionalTopic) (source : PeerId) :
    NodeMoves E n (n.activateProven E peers p source).2 := by
  unfold Node.activateProven
  split
  · exact .refl
  · split
    · exact .refl
    · split
      · exact .refl
      · exact Node.activate_moves _ _ _

theorem Node.touch_moves (p : ProvisionalTopic) (now : ℕ) :
    NodeMoves E n { n with storage := n.storage.touchNamespace p now } :=
  .single (.stored ⟨.touchNamespace p now, fun _ => .ok ()⟩ trivial n.writes)

theorem Node.stage_moves {ops : List Op} {verified : BTreeSet OpId} (p : ProvisionalTopic)
    (source : PeerId) (now : ℕ) (hver : ∀ op ∈ ops, op.id ∈ verified → E.Valid op)
    (htopic : ∀ op ∈ ops, op.body.topicId = p.topicId) :
    NodeMoves E n (n.stage E peers p source ops verified now).2 := by
  unfold Node.stage
  split
  · exact .refl
  · rename_i ns hns
    have hroom : NodeMoves E n (n.makeRoom p (Node.incomingBytes E ns.inner ops)).2 := Node.makeRoom_moves _ _
    split
    · rename_i h
      rw [h] at hroom
      exact hroom
    · rename_i n₁ h
      rw [h] at hroom
      dsimp only
      refine hroom.trans ?_
      have hcall : NodeMoves E n₁
        (n₁.through (some p.viewKey) (Node.receiveCall E verified none (some source) ops) none).2 :=
        Node.through_view_moves _ _ (fun V log => Node.receiveCall_steps V log hver (by intro; simp))
          fun V log => Node.receiveCall_confines V log hver (by intro; simp) htopic
      have hrest := (hcall.trans (Node.touch_moves p now)).trans (Node.activateProven_moves peers p source)
      split <;> exact hrest

/-- A namespace that was just opened is the source's of the topic. -/
theorem Node.openProvisional_entry {source : PeerId} {t : TopicId} {genesis : OpId} {now : ℕ} (H : NodeOK E n)
    (h : n.openProvisional E source t genesis now = (.ok p, n')) :
    p.source = source ∧ p.topicId = t ∧ p.activating = false := by
  unfold Node.openProvisional at h
  have hpost : Post (n.storage.openNamespace (E.reserve n.writes 0) source t genesis now) _ _ :=
    openNamespace_post
  cases hopen : n.storage.openNamespace (E.reserve n.writes 0) source t genesis now with
  | error e => rw [hopen] at h; cases h
  | ok out =>
    rw [hopen] at h
    cases h
    obtain ⟨-, ⟨ns, hns, heq⟩ | ⟨-, topic, rfl, heq⟩⟩ := hpost.of_ok hopen
    · rw [heq]
      exact ⟨congrArg Prod.fst (H.keys _ ns hns), congrArg Prod.snd (H.keys _ ns hns), H.activating _ ns hns⟩
    · rw [heq]
      exact ⟨rfl, rfl, rfl⟩

theorem Node.provisionalOf_entry {source : PeerId} {t : TopicId} (H : NodeOK E n)
    (h : n.provisionalOf source t = some p) :
    p.source = source ∧ p.topicId = t ∧ p.activating = false := by
  obtain ⟨hsource, htopic⟩ : p.source = source ∧ p.topicId = t := by simpa using List.find?_some h
  obtain ⟨⟨k, ns⟩, hns, rfl⟩ := List.mem_map.1 (List.mem_of_find?_eq_some h)
  exact ⟨hsource, htopic, H.activating k ns (ExtTreeMap.mem_toList_iff_getElem?_eq_some.1 hns)⟩

/-- Where `bootstrap_unknown` opens a namespace and stages the fragment in it. -/
def Node.openStage (E : Env) (n : Node) (peers : SyncPeers) (source : PeerId) (t : TopicId) (genesis : OpId)
    (ops : List Op) (verified : BTreeSet OpId) (now : ℕ) : Result Bootstrap × Node :=
  match n.openProvisional E source t genesis now with
  | (.error e, n) => (.error e, n)
  | (.ok p, n) => n.stage E peers p source ops verified now

theorem Node.bootstrapUnknown_moves {ops : List Op} {verified : BTreeSet OpId} (H : NodeOK E n)
    (peers : SyncPeers) (source : PeerId) (t : TopicId) (now : ℕ)
    (hver : ∀ op ∈ ops, op.id ∈ verified → E.Valid op) (htopic : ∀ op ∈ ops, op.body.topicId = t) :
    NodeMoves E n (n.bootstrapUnknown E peers source t ops verified now).2 := by
  have hopened : ∀ {n : Node} (genesis : OpId), NodeOK E n →
      NodeMoves E n (n.openStage E peers source t genesis ops verified now).2 := by
    intro n genesis H
    unfold Node.openStage
    have h := Node.openProvisional_moves (E := E) (n := n) source t genesis now
    split
    · rename_i heq
      rw [heq] at h
      exact h
    · rename_i heq
      have hp := (Node.openProvisional_entry H heq).2.1
      rw [heq] at h
      exact h.trans (Node.stage_moves _ _ _ hver (by rwa [hp]))
  unfold Node.bootstrapUnknown
  split
  · exact .refl
  · dsimp only
    have hexpire := Node.expireBootstraps_moves (E := E) (n := n) now
    have H' := H.moves hexpire
    split
    · exact hexpire
    · refine hexpire.trans ?_
      split
      · rename_i current hcurrent
        have htopic' : ∀ op ∈ ops, op.body.topicId = current.topicId := by
          rwa [(Node.provisionalOf_entry H' hcurrent).2.1]
        split
        · exact Node.activateProven_moves _ _ _
        · split
          · exact Node.stage_moves _ _ _ hver htopic'
          · split
            · have h := Node.discard_moves (E := E) (n := n.expireBootstraps now) current
              split
              · rename_i heq
                rw [heq] at h
                exact h
              · rename_i heq
                rw [heq] at h
                exact h.trans (hopened _ (H'.moves h))
            · split
              · exact .refl
              · exact Node.stage_moves _ _ _ hver htopic'
      · exact hopened _ H'
      · exact .refl

theorem Node.finishBootstrap_moves (source : PeerId) (t : TopicId) :
    NodeMoves E n (n.finishBootstrap E peers source t).2 := by
  unfold Node.finishBootstrap
  split
  · exact .refl
  · split
    · exact .refl
    · exact Node.activateProven_moves _ _ _

theorem Node.forwardEffects_ok : EffectsOK (some (n.forwardEffects peers)) := by
  intro compute h source entries state e he
  cases h
  cases he

theorem Node.receiveSyncOutcome_moves (H : NodeOK E n) (source : PeerId) (t : TopicId) (ops : List Op) (now : ℕ) :
    NodeMoves E n (n.receiveSyncOutcome E peers source t ops now).2 := by
  unfold Node.receiveSyncOutcome
  split
  · exact .refl
  · rename_i hany
    have htopic : ∀ op ∈ ops, op.body.topicId = t := by
      intro op hop
      by_contra hne
      exact hany (List.any_eq_true.2 ⟨op, hop, by simpa using hne⟩)
    split
    · exact .refl
    · rename_i hvalid
      have hver : ∀ op ∈ ops, op.id ∈ (ExtTreeSet.ofList (ops.map (·.id)) compare : BTreeSet OpId) → E.Valid op :=
        fun op hop _ => forM_eq_ok.1 hvalid op hop
      have hboot := Node.bootstrapUnknown_moves H peers source t now hver htopic
      dsimp only
      split
      · rename_i h
        rw [h] at hboot
        exact hboot
      · rename_i h
        rw [h] at hboot
        exact hboot
      · rename_i h
        rw [h] at hboot
        exact hboot.trans (Node.through_main_moves (Node.receiveCall E _ _ _ _) _ fun V log =>
          Node.receiveCall_steps V log hver Node.forwardEffects_ok)

/-- The call records evidence of what a peer holds. -/
def NodeOp.Evidential : NodeOp → Prop
  | .applyAck _ _ | .applyAcks _ | .recordPeerSynced _ _ _ | .recordFingerprint _ _ _ _ => True
  | _ => False

/-- **The moves of one call.** A call that records evidence replaces the evidence of the active records and
nothing else. -/
theorem Node.step_moves (H : NodeOK E n) (ev : NodeEvent) :
    NodeMoves E n (n.step E ev) ∨ ev.op.Evidential ∧ ∃ (v : Evidence) (writes : ℕ), n.step E ev =
      { n with
        storage := { n.storage with inner := { n.storage.inner with toEvidence := v } }, writes := writes } := by
  have evidence : ∀ {α : Type} (res : Result α) (f : α → Evidence) {op : NodeOp}, op.Evidential →
    NodeMoves E n (n.withEvidence res f).2 ∨
      op.Evidential ∧ ∃ (v : Evidence) (writes : ℕ), (n.withEvidence res f).2 =
        { n with
          storage := { n.storage with inner := { n.storage.inner with toEvidence := v } }
          writes := writes } := by
    intro α res f op hop
    cases res with
    | error e => exact Or.inl (.single (.ticked _))
    | ok a => exact Or.inr ⟨hop, f a, n.writes + 1, rfl⟩
  unfold Node.step Node.apply
  obtain ⟨op, peers⟩ := ev
  cases op with
  | receiveOps source ops bound =>
    exact Or.inl (Node.through_main_moves _ _ fun V log =>
      Node.receiveCall_steps V log (by simp) (by intro; simp))
  | receiveSync source t ops now => exact Or.inl (Node.receiveSyncOutcome_moves H _ _ _ _)
  | createLocal t a payload signer effects =>
    exact Or.inl (Node.through_main_moves _ _ fun V log => .single (createLocal_logStep V log _ _ _ _ _))
  | createGenesisWithEvent t a genesis event signer effects =>
    exact Or.inl (Node.through_main_moves _ _ fun V log =>
      .single (createGenesisWithEvent_logStep V log _ _ _ _ _ _))
  | reconcile => exact Or.inl (Node.through_main_moves _ _ Node.reconcileCall_steps)
  | quarantine t =>
    exact Or.inl (Node.through_main_moves _ _ fun V log => .single (quarantineOrphans_logStep V log t))
  | recheck =>
    exact Or.inl (Node.through_main_moves (fun _ log => (.ok (), log.recheckTopics)) none fun V log =>
      .single (recheckTopics_logStep log))
  | finishBootstrap source t => exact Or.inl (Node.finishBootstrap_moves _ _)
  | resumeBootstraps => exact Or.inl (Node.foldl_moves (fun n p => Node.activateProven_moves _ _ _) _ n)
  | expireBootstraps now => exact Or.inl (Node.expireBootstraps_moves now)
  | applyAck signed ack => exact evidence _ _ trivial
  | applyAcks acks => exact evidence _ _ trivial
  | recordPeerSynced whole member t => exact evidence _ _ trivial
  | recordFingerprint whole member t fingerprint => exact evidence _ _ trivial
  | upkeep u =>
    exact Or.inl (.single (.stored ⟨.write none u.toWrite, E.reserve n.writes⟩ ⟨u, rfl⟩ (n.writes + 1)))

/-- **One call keeps a node sound.** -/
theorem NodeOK.step (H : NodeOK E n) (ev : NodeEvent) : NodeOK E (n.step E ev) := by
  rcases Node.step_moves H ev with h | ⟨-, v, writes, h⟩
  · exact H.moves h
  · rw [h]
    refine H.withMain ?_
    exact ⟨H.main.records, H.main.buffer, H.main.cache, H.main.pending, H.main.waits, H.main.apart⟩

theorem Node.run_append (n : Node) (evs evs' : List NodeEvent) :
    n.run E (evs ++ evs') = (n.run E evs).run E evs' := by
  simp [Node.run]

theorem NodeOK.run (H : NodeOK E n) (evs : List NodeEvent) : NodeOK E (n.run E evs) := by
  induction evs generalizing n with
  | nil => exact H
  | cons ev evs ih => exact ih (H.step ev)

/-- A node that never made a call. -/
def Node.fresh (peer : PeerId) (limits : StagingLimits) : Node :=
  { peer := peer, storage := { limits := limits } }

/-- **Every reachable node is sound.** -/
theorem nodeOK_run (peer : PeerId) (limits : StagingLimits) (evs : List NodeEvent) :
    NodeOK E ((Node.fresh peer limits).run E evs) := (nodeOK_fresh peer limits).run evs

end Irokle
