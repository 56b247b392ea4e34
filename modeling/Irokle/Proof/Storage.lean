import Irokle.Proof.Staging

/-!
# Runs of a memory store

`StorageStep` says what one operation can do to a store; the invariants follow from it.

* `Write.run_buffer` — every write to one set of records keeps its buffer sound;
* `StorageOK.step`, `StorageOK.run` — the pending indexes stay in step over every run, and settled
  while no activation copies what the active buffer waits for;
* `refused_run` — a view of an ended session is refused for good.
-/

namespace Irokle

open Std Outcome Causal

variable {K : Prop} {E : Env} {s s' : MemoryStorage} {inner : MemoryInner} {quota : Option StagingQuota}
  {reserve : ℕ → Result Unit} {p : ProvisionalTopic} {expected : TopicState} {effects : AdmissionEffects}
  {ns : Namespace} {v : ViewKey} {ev : StorageEvent} {evs : List StorageEvent}

/-! ## Writes to one set of records -/

/-- The buffer is sound. -/
abbrev MemoryInner.BufferOK (K : Prop) (inner : MemoryInner) : Prop :=
  Irokle.BufferOK K inner.toRecords inner.toPendingIndex

/-- Writing an admitted batch keeps the buffer sound, and the times of the ops. -/
theorem admitBatchLocked_buffer (reserve : ℕ → Result Unit) (quota : Option StagingQuota) (b : AdmittedBatch)
    (B : inner.BufferOK K) :
    (admitBatchLocked E reserve quota inner b).2.BufferOK K ∧
      (admitBatchLocked E reserve quota inner b).2.pendingSince = inner.pendingSince := by
  unfold admitBatchLocked
  cases admitPlan E reserve quota inner b with
  | error e => exact ⟨B, rfl⟩
  | ok plan =>
    have B₀ : MemoryInner.BufferOK K { inner with admittedBytes := inner.admittedBytes + plan.charge } := B
    obtain ⟨inner₁, hforEach, -, B₁, A₁, -⟩ := forEach_writeEntry B₀ plan.entries
    dsimp only
    rw [hforEach]
    exact ⟨B₁.of_resolves fun _ h => h, A₁.since⟩

theorem resetTopicAndAdmit_buffer {t : TopicId} {b : AdmittedBatch} {eviction : Option TopicEviction}
    (B : inner.BufferOK K) :
    Post (resetTopicAndAdmit E reserve inner t expected b eviction)
      (fun res => res.2.BufferOK K ∧ res.2.pendingSince = inner.pendingSince) fun _ => True := by
  unfold resetTopicAndAdmit
  refine Post.skip fun _ => Post.skip fun _ => Post.skip fun _ => ?_
  rcases resetTopicLocked_spec B t (reserve 3) with ⟨e, -, hres⟩ | ⟨k, inner₁, -, hres, R₁⟩
  · rw [hres]
    exact Post.error trivial
  · rw [hres]
    obtain ⟨B₂, hsince⟩ := admitBatchLocked_buffer (E := E) reserve none b R₁.buffer
    exact Post.skip fun _ => Post.skip fun _ => Post.skip fun _ => Post.pure ⟨B₂, hsince.trans R₁.since⟩

/-- What holds before a call and of what it returns holds after it. -/
theorem MemoryInner.of_update {α : Type} {f : α → MemoryInner} {res : Result α} {Q : MemoryInner → Prop}
    (hinner : Q inner) (h : ∀ a, res = .ok a → Q (f a)) : Q (inner.update f res).2 := by
  cases res with
  | ok a => exact h a rfl
  | error e => exact hinner

/-- The write leaves the buffer sound, and the times of the ops unless it is a sweep. -/
def Write.Leaves (w : Write) (K : Prop) (inner inner' : MemoryInner) : Prop :=
  inner'.BufferOK K ∧ ((∀ now maxIdle, w ≠ .expirePending now maxIdle) → inner'.pendingSince = inner.pendingSince)

/-- **Every write to one set of records keeps its buffer sound**, and only a sweep sets the times of the ops. -/
theorem Write.run_buffer (w : Write) (B : inner.BufferOK K) :
    w.Leaves K inner (w.run E reserve quota inner).2 := by
  have same : w.Leaves K inner inner := ⟨B, fun _ => rfl⟩
  cases w with
  | admittedBatch b => exact (admitBatchLocked_buffer reserve quota b B).imp_right fun h _ => h
  | resetTopic t =>
    unfold Write.run
    dsimp only
    rcases resetTopicLocked_spec B t (reserve 0) with ⟨e, -, hres⟩ | ⟨k, inner₁, -, hres, R₁⟩
    · rw [hres]
      exact same
    · rw [hres]
      exact ⟨R₁.buffer, fun _ => R₁.since⟩
  | resetTopicAndAdmit t expected b eviction =>
    unfold Write.run
    dsimp only
    split
    · exact same
    · exact MemoryInner.of_update same fun res hres => ((resetTopicAndAdmit_buffer B).of_ok hres).imp_right
        fun h _ => h
  | putPendingBound source op m genesis =>
    refine MemoryInner.of_update same fun p hp => ?_
    obtain ⟨B', ⟨rfl, -⟩ | ⟨S, -⟩⟩ := (putPendingBound_post B).of_ok hp
    · exact same
    · exact ⟨B', fun _ => S.since⟩
  | removePendingOp id =>
    obtain ⟨p', h, B', R⟩ := B.removePendingOp id
    show Leaves _ K inner { inner with toPendingIndex := (inner.removePendingOp id).2 }
    rw [h]
    exact ⟨B', fun _ => R.since⟩
  | purgePendingWaiters dep =>
    obtain ⟨k, p', h, B', R⟩ := B.purge dep
    show Leaves _ K inner { inner with toPendingIndex := (inner.purgePendingWaiters dep).2 }
    rw [h]
    exact ⟨B', fun _ => R.since⟩
  | rejectPendingSubtree id =>
    show Leaves _ K inner { inner with toPendingIndex := (inner.rejectPendingSubtree (reserve 0) id).2 }
    rcases B.reject (reserve 0) id with ⟨e, -, h⟩ | ⟨k, p', h, B', hsince, -⟩
    · rw [h]
      exact same
    · rw [h]
      exact ⟨B', fun _ => hsince⟩
  | expirePending now maxIdle =>
    obtain ⟨k, p', h, B', -⟩ := B.expire now maxIdle
    show Leaves _ K inner { inner with toPendingIndex := (inner.expirePending now maxIdle).2 }
    rw [h]
    exact ⟨B', fun hw => absurd rfl (hw now maxIdle)⟩
  | applyPeerAck | putSyncObligation | sealTopic => exact MemoryInner.of_update same fun _ _ => same
  | clearPeerSyncState | unsealTopic | clearEviction => exact same

/-! ## Steps -/

/-- What a successful activation did. -/
structure Activation (s : MemoryStorage) (reserve : ℕ → Result Unit) (p : ProvisionalTopic)
    (expected : TopicState) (effects : AdmissionEffects) (ns : Namespace)
    (changes : BTreeMap (PeerId × ObligationKind) SyncObligation) (moves : List (ℕ × OpId × BTreeSet OpId))
    (s' : MemoryStorage) : Prop where
  ran : s.activateNamespace reserve p expected effects = (.ok (), s')
  viewed : s.viewed p.viewKey = some ns
  absent : s.inner.topics[p.topicId]? = none
  state : ns.inner.topicState p.topicId = some expected
  merged : mergedEffects s.inner.toEvidence p.topicId (some expected.genesis) effects.syncObligations ∅ =
    .ok changes
  planned : pendingMoves ns.inner s.inner p.topicId (s.branchStores p.topicId p.genesis) = .ok moves
  eq : s' = { s with
    inner := { s.inner with
      toRecords := { ns.inner.toRecords.copyTopic s.inner.toRecords p.topicId with
        topics := (ns.inner.toRecords.copyTopic s.inner.toRecords p.topicId).topics.insert p.topicId expected }
      toPendingIndex := movePending p.topicId (s.branchStores p.topicId p.genesis) s.inner.toPendingIndex moves
      toEvidence := (changes.toList.map (·.2)).foldl Evidence.putObligationLocked s.inner.toEvidence }
    namespaces := s.namespaces.filter fun k _ => decide (k.2 ≠ p.topicId) }

/-- A step that may be refused ends the call there, with what was written before. -/
theorem run_ofExcept_bind {α : Type} {x : Result α} {f : α → LockedCall Unit} {res : Result Unit}
    (h : (MonadExcept.ofExcept x >>= f).run.run s = (res, s')) :
    (∃ e, res = .error e ∧ s' = s) ∨ ∃ a, x = .ok a ∧ (f a).run.run s = (res, s') := by
  cases x with
  | error e => exact Or.inl ⟨e, (congrArg Prod.fst h).symm, (congrArg Prod.snd h).symm⟩
  | ok a => exact Or.inr ⟨a, rfl, h⟩

theorem run_get_bind {f : MemoryStorage → LockedCall Unit} : (get >>= f).run.run s = (f s).run.run s := rfl

theorem run_modify_bind {g : MemoryStorage → MemoryStorage} {f : PUnit → LockedCall Unit} :
    (modify g >>= f).run.run s = (f ⟨⟩).run.run (g s) := rfl

theorem run_modify {g : MemoryStorage → MemoryStorage} :
    (modify g : LockedCall Unit).run.run s = (.ok (), g s) := rfl

/-- **An activation writes nothing before its last step that can be refused.** -/
theorem activateNamespace_cases {res : Result Unit}
    (h : s.activateNamespace reserve p expected effects = (res, s')) :
    (∃ e, res = .error e ∧ s' = s) ∨
      res = .ok () ∧ ∃ ns changes moves, Activation s reserve p expected effects ns changes moves s' := by
  have hran := h
  unfold MemoryStorage.activateNamespace activateLocked at h
  dsimp only at h
  obtain h | ⟨-, -, h⟩ := run_ofExcept_bind h
  · exact Or.inl h
  rw [run_get_bind] at h
  obtain h | ⟨_, habsent, h⟩ := run_ofExcept_bind h
  · exact Or.inl h
  obtain h | ⟨ns, hns, h⟩ := run_ofExcept_bind h
  · exact Or.inl h
  obtain h | ⟨_, hstate, h⟩ := run_ofExcept_bind h
  · exact Or.inl h
  obtain h | ⟨-, -, h⟩ := run_ofExcept_bind h
  · exact Or.inl h
  obtain h | ⟨-, -, h⟩ := run_ofExcept_bind h
  · exact Or.inl h
  obtain h | ⟨changes, hchanges, h⟩ := run_ofExcept_bind h
  · exact Or.inl h
  obtain h | ⟨moves, hmoves, h⟩ := run_ofExcept_bind h
  · exact Or.inl h
  obtain h | ⟨-, -, h⟩ := run_ofExcept_bind h
  · exact Or.inl h
  -- nothing is refused from here on
  rw [run_modify_bind, run_modify_bind, run_modify_bind, run_modify_bind, run_modify] at h
  obtain ⟨rfl, rfl⟩ := Prod.mk.inj h
  have habsent' : s.inner.topics[p.topicId]? = none := by
    rw [refuseIf_eq_ok, Bool.not_eq_true, ExtTreeMap.contains_eq_isSome_getElem?] at habsent
    exact Option.isNone_iff_eq_none.1 (Option.isSome_eq_false_iff.1 habsent)
  have hviewed : s.viewed p.viewKey = some ns := by
    cases hv : s.viewed p.viewKey with
    | none => rw [hv] at hns; cases hns
    | some ns' => rw [hv] at hns; cases hns; rfl
  exact Or.inr ⟨rfl, ns, changes, moves, hran, hviewed, habsent', not_not.1 (refuseIf_eq_ok.1 hstate), hchanges,
    hmoves, rfl⟩

theorem activateNamespace_eq_ok (h : s.activateNamespace reserve p expected effects = (.ok (), s')) :
    ∃ ns changes moves, Activation s reserve p expected effects ns changes moves s' := by
  obtain ⟨e, h, -⟩ | ⟨-, h⟩ := activateNamespace_cases h
  · cases h
  · exact h

/-- The registry entry of `ns` was updated, and its records replaced by `inner`. -/
structure Updates (ns : Namespace) (inner : MemoryInner) (ns' : Namespace) : Prop where
  source : ns'.topic.source = ns.topic.source
  topicId : ns'.topic.topicId = ns.topic.topicId
  genesis : ns'.topic.genesis = ns.topic.genesis
  session : ns'.topic.session = ns.topic.session
  activating : ns'.topic.activating = ns.topic.activating
  inner : ns'.inner = inner

theorem Updates.key {ns' : Namespace} (h : Updates ns inner ns') : ns'.topic.key = ns.topic.key := by
  rw [ProvisionalTopic.key, h.source, h.topicId]
  rfl

/-- What one operation can do to a store. -/
inductive StorageStep (E : Env) (s : MemoryStorage) : StorageEvent → MemoryStorage → Prop
  | refused (ev : StorageEvent) : StorageStep E s ev s
  | main (w : Write) (reserve : ℕ → Result Unit) :
      StorageStep E s ⟨.write none w, reserve⟩ { s with inner := (w.run E reserve none s.inner).2 }
  | view {v : ViewKey} (w : Write) (reserve : ℕ → Result Unit) {ns ns' : Namespace} (hns : s.viewed v = some ns)
      (h : Updates ns (w.run E reserve (s.quota (some v)) ns.inner).2 ns') :
      StorageStep E s ⟨.write (some v) w, reserve⟩
      { s with namespaces := s.namespaces.insert (v.source, v.topicId) ns' }
  | opened (source : PeerId) (t : TopicId) (genesis : OpId) (now : ℕ) (reserve : ℕ → Result Unit)
      {topic : ProvisionalTopic} (hkey : topic.key = (source, t)) (hsession : topic.session = s.sessions + 1)
      (hactivating : topic.activating = false) (habsent : s.inner.topics[t]? = none)
      (hnew : s.namespaces[(source, t)]? = none) :
      StorageStep E s ⟨.openNamespace source t genesis now, reserve⟩
        { s with sessions := s.sessions + 1, namespaces := s.namespaces.insert (source, t) ⟨topic, {}⟩ }
  | touched (p : ProvisionalTopic) (now : ℕ) (reserve : ℕ → Result Unit) {ns ns' : Namespace}
      (hns : s.viewed p.viewKey = some ns) (h : Updates ns ns.inner ns') :
      StorageStep E s ⟨.touchNamespace p now, reserve⟩ { s with namespaces := s.namespaces.insert p.key ns' }
  | activated {p : ProvisionalTopic} {expected : TopicState} {effects : AdmissionEffects}
      {reserve : ℕ → Result Unit} {ns : Namespace} {changes : BTreeMap (PeerId × ObligationKind) SyncObligation}
      {moves : List (ℕ × OpId × BTreeSet OpId)} {s' : MemoryStorage}
      (h : Activation s reserve p expected effects ns changes moves s') :
      StorageStep E s ⟨.activateNamespace p expected effects, reserve⟩ s'
  | discarded (p : ProvisionalTopic) (reserve : ℕ → Result Unit) {ns : Namespace}
      (hns : s.namespaces[p.key]? = some ns) :
      StorageStep E s ⟨.discardNamespace p, reserve⟩ { s with namespaces := s.namespaces.erase p.key }

theorem MemoryStorage.viewed_eq_some : s.viewed v = some ns ↔
    s.namespaces[(v.source, v.topicId)]? = some ns ∧ ns.topic.session = v.session := by
  unfold MemoryStorage.viewed
  rw [Option.filter_eq_some_iff]
  simp

theorem openNamespace_post {source : PeerId} {t : TopicId} {genesis : OpId} {now : ℕ} {res : Result Unit} :
    Post (s.openNamespace res source t genesis now)
      (fun out => s.inner.topics[t]? = none ∧
        ((∃ ns, s.namespaces[(source, t)]? = some ns ∧ out = (ns.topic, s)) ∨
        s.namespaces[(source, t)]? = none ∧ ∃ topic : ProvisionalTopic,
          topic = ⟨source, t, genesis, s.sessions + 1, now, false, 0, 0⟩ ∧
          out = (topic, { s with
            sessions := s.sessions + 1, namespaces := s.namespaces.insert (source, t) ⟨topic, {}⟩ })))
      fun _ => True := by
  unfold MemoryStorage.openNamespace
  refine refuseIf_bind (fun _ => trivial) fun habsent => ?_
  have habsent' : s.inner.topics[t]? = none := by
    rw [Bool.not_eq_true, ExtTreeMap.contains_eq_isSome_getElem?] at habsent
    exact Option.isNone_iff_eq_none.1 (Option.isSome_eq_false_iff.1 habsent)
  split
  · rename_i ns hns
    exact Post.pure ⟨habsent', Or.inl ⟨ns, hns, rfl⟩⟩
  · rename_i hnone
    refine Post.skip fun _ => ?_
    refine Post.skip fun _ => ?_
    exact Post.pure ⟨habsent', Or.inr ⟨hnone, _, rfl, rfl⟩⟩

theorem lock_some : s.lock (some v) = .ok inner ↔ ∃ ns, s.viewed v = some ns ∧ ns.inner = inner := by
  unfold MemoryStorage.lock
  dsimp only
  cases s.viewed v <;> simp

/-- A view releases its namespace with the records it leaves. -/
theorem MemoryStorage.release_view (inner : MemoryInner) (changed : ℕ) (hns : s.viewed v = some ns) :
    ∃ ns', Updates ns inner ns' ∧
      s.release (some v) inner changed =
        { s with namespaces := s.namespaces.insert (v.source, v.topicId) ns' } := by
  unfold MemoryStorage.release
  dsimp only
  rw [hns]
  refine ⟨_, ?_, rfl⟩
  split <;> exact ⟨rfl, rfl, rfl, rfl, rfl, rfl⟩

/-- Every operation takes one of these steps. -/
theorem storageStep (E : Env) (s : MemoryStorage) (ev : StorageEvent) : StorageStep E s ev (s.step E ev) := by
  obtain ⟨op, reserve⟩ := ev
  unfold MemoryStorage.step MemoryStorage.apply
  cases op with
  | write view w =>
    dsimp only
    cases view with
    | none => exact .main w reserve
    | some v =>
      unfold MemoryStorage.write MemoryStorage.lock
      dsimp only
      cases hns : s.viewed v with
      | none => exact .refused _
      | some ns =>
        obtain ⟨ns', hup, hs⟩ := MemoryStorage.release_view _ _ hns
        dsimp only
        rw [hs]
        exact .view w reserve hns hup
  | openNamespace source t genesis now =>
    dsimp only
    have h : Post (s.openNamespace (reserve 0) source t genesis now) _ _ := openNamespace_post
    cases hopen : s.openNamespace (reserve 0) source t genesis now with
    | error e => exact .refused _
    | ok out =>
      obtain ⟨habsent, ⟨ns, -, rfl⟩ | ⟨hnew, topic, htopic, rfl⟩⟩ := h.of_ok hopen
      · exact .refused _
      · subst htopic
        exact .opened source t genesis now reserve rfl rfl rfl habsent hnew
  | touchNamespace p now =>
    dsimp only
    unfold MemoryStorage.touchNamespace
    cases hns : s.viewed p.viewKey with
    | none => exact .refused _
    | some ns => exact .touched p now reserve hns ⟨rfl, rfl, rfl, rfl, rfl, rfl⟩
  | activateNamespace p expected effects =>
    dsimp only
    obtain ⟨e, -, h⟩ | ⟨-, ns, changes, moves, ha⟩ :=
      activateNamespace_cases (Prod.mk.eta (p := s.activateNamespace reserve p expected effects)).symm
    · rw [h]
      exact .refused _
    · exact .activated ha
  | discardNamespace p =>
    dsimp only
    unfold MemoryStorage.discardNamespace
    cases hns : s.namespaces[p.key]? with
    | none => exact .refused _
    | some ns =>
      dsimp only
      split
      · exact .discarded p reserve hns
      · exact .refused _

theorem StorageStep.sessions_le (h : StorageStep E s ev s') : s.sessions ≤ s'.sessions := by
  cases h with
  | opened => exact Nat.le_succ _
  | activated A => rw [A.eq]
  | _ => exact le_rfl

/-- Where a namespace comes from: it was there, with its own records or those that a write through its view
leaves, or the operation opened it. -/
theorem StorageStep.namespace_cases {k : PeerId × TopicId} {ns' : Namespace} (h : StorageStep E s ev s')
    (hns' : s'.namespaces[k]? = some ns') :
    (∃ ns inner, s.namespaces[k]? = some ns ∧ Updates ns inner ns' ∧
      (inner = ns.inner ∨ ∃ v w, ev.op = .write (some v) w ∧ (v.source, v.topicId) = k ∧
        ns.topic.session = v.session ∧ inner = (w.run E ev.reserve (s.quota (some v)) ns.inner).2)) ∨
    ns'.inner = {} ∧ ns'.topic.key = k ∧ ns'.topic.session = s.sessions + 1 ∧ ns'.topic.activating = false ∧
      s'.sessions = s.sessions + 1 := by
  by_cases hold : s.namespaces[k]? = some ns'
  · exact Or.inl ⟨ns', _, hold, ⟨rfl, rfl, rfl, rfl, rfl, rfl⟩, Or.inl rfl⟩
  cases h with
  | refused | main => exact absurd hns' hold
  | view w reserve hns h =>
    obtain ⟨hns, hs⟩ := MemoryStorage.viewed_eq_some.1 hns
    obtain ⟨rfl, rfl⟩ := (BTreeMap.of_getElem?_insert hns').resolve_right fun h => hold h.2
    exact Or.inl ⟨_, _, hns, h, Or.inr ⟨_, w, rfl, rfl, hs, rfl⟩⟩
  | opened source t genesis now reserve hkey hsession hactivating =>
    obtain ⟨rfl, rfl⟩ := (BTreeMap.of_getElem?_insert hns').resolve_right fun h => hold h.2
    exact Or.inr ⟨rfl, hkey, hsession, hactivating, rfl⟩
  | touched p now reserve hns h =>
    obtain ⟨rfl, rfl⟩ := (BTreeMap.of_getElem?_insert hns').resolve_right fun h => hold h.2
    exact Or.inl ⟨_, _, (MemoryStorage.viewed_eq_some.1 hns).1, h, Or.inl rfl⟩
  | activated A =>
    rw [A.eq, getElem?_filter_key, Option.ite_none_right_eq_some] at hns'
    exact absurd hns'.2 hold
  | discarded => exact absurd (BTreeMap.of_getElem?_erase hns').2 hold

/-! ## The buffers over a run -/

/-- The buffer of the active records and of every namespace is sound, and sessions are handed out in order. -/
structure StorageOK (K : Prop) (s : MemoryStorage) : Prop where
  buffer : s.inner.BufferOK K
  staged : ∀ (k : PeerId × TopicId) ns, s.namespaces[k]? = some ns → ns.inner.BufferOK True
  keys : ∀ (k : PeerId × TopicId) ns, s.namespaces[k]? = some ns → ns.topic.key = k
  sessions : ∀ (k : PeerId × TopicId) ns, s.namespaces[k]? = some ns → ns.topic.session ≤ s.sessions

theorem storageOK_empty (limits : StagingLimits) : StorageOK K { limits := limits } :=
  ⟨bufferOK_empty, by simp, by simp, by simp⟩

/-- Nothing the active buffer holds or waits for is among the ops the activation of `p` copies. -/
def MemoryStorage.Undisturbed (s : MemoryStorage) (p : ProvisionalTopic) : Prop :=
  ∀ ns, s.viewed p.viewKey = some ns → ∀ (id : OpId) rec, s.inner.pendingRecords[id]? = some rec →
    ∀ k, k = id ∨ k ∈ rec.missing → ¬(k ∈ ns.inner.listOpIds p.topicId ∧ ns.inner.depResolvable k = true)

theorem MemoryStorage.mem_branchStores {t : TopicId} {genesis : OpId} : inner ∈ s.branchStores t genesis ↔
    ∃ (k : PeerId × TopicId) (ns : Namespace), s.namespaces[k]? = some ns ∧ k.2 = t ∧ ns.topic.genesis = genesis ∧
      ns.inner = inner := by
  unfold MemoryStorage.branchStores MemoryStorage.namespacesOf
  simp only [List.mem_map, List.mem_filter, decide_eq_true_eq, Prod.exists,
    ExtTreeMap.mem_toList_iff_getElem?_eq_some]
  constructor
  · rintro ⟨a, b, ns, ⟨⟨h, ht⟩, hg⟩, rfl⟩
    exact ⟨a, b, ns, h, ht, hg, rfl⟩
  · rintro ⟨a, b, ns, h, ht, hg, rfl⟩
    exact ⟨a, b, ns, ⟨⟨h, ht⟩, hg⟩, rfl⟩

/-- What an activation moves. -/
theorem Activation.moveInv {changes : BTreeMap (PeerId × ObligationKind) SyncObligation}
    {moves : List (ℕ × OpId × BTreeSet OpId)} (H : StorageOK K s)
    (A : Activation s reserve p expected effects ns changes moves s') :
    ∃ m, MoveInv ns.inner s.inner p.topicId (s.branchStores p.topicId p.genesis) m s'.inner.toPendingIndex ∧
      ∀ staged ∈ s.branchStores p.topicId p.genesis, ∀ (id : OpId) rec, staged.pendingRecords[id]? = some rec →
        rec.topicId = p.topicId → id ∈ m.moved ∨ NoMove ns.inner s.inner p.topicId id rec := by
  have hstores : ∀ staged ∈ s.branchStores p.topicId p.genesis, PendingOK staged.toPendingIndex := by
    intro staged hstaged
    obtain ⟨k, ns, hns, -, -, rfl⟩ := MemoryStorage.mem_branchStores.1 hstaged
    exact (H.staged k ns hns).ok
  obtain ⟨m, hm⟩ := (pendingMoves_post H.buffer.ok hstores).of_ok A.planned
  exact ⟨m, by rw [A.eq]; exact hm.1, hm.2⟩

/-- An activation keeps the pending indexes in step, and settled when it copies nothing the active buffer
holds or waits for. -/
theorem Activation.buffer {changes : BTreeMap (PeerId × ObligationKind) SyncObligation}
    {moves : List (ℕ × OpId × BTreeSet OpId)} (H : StorageOK K s)
    (A : Activation s reserve p expected effects ns changes moves s') (hclean : K → s.Undisturbed p) :
    s'.inner.BufferOK K := by
  obtain ⟨m, I, -⟩ := A.moveInv H
  have hresolve : ∀ k, s'.inner.depResolvable k = true →
      s.inner.depResolvable k = true ∨ k ∈ ns.inner.listOpIds p.topicId ∧ ns.inner.depResolvable k = true := by
    intro k hk
    rw [A.eq] at hk
    exact Records.depResolvable_copyTopic.1 hk
  -- what was buffered stays unresolved because nothing it waits for is copied
  have hold : K → ∀ (id : OpId) rec, s.inner.pendingRecords[id]? = some rec → ∀ k, k = id ∨ k ∈ rec.missing →
      s'.inner.depResolvable k = false := by
    intro hK id rec hrec k hk
    rw [Bool.eq_false_iff]
    intro hres
    rcases hresolve k hres with h | h
    · have hno : s.inner.depResolvable k = false := by
        rcases hk with rfl | hk
        · exact H.buffer.stored hK k rec hrec
        · exact H.buffer.missing hK id rec hrec k hk
      rw [hno] at h
      cases h
    · exact hclean hK ns A.viewed id rec hrec k hk h
  -- what is moved keeps only the waits that stay unresolved
  have hmoved : ∀ k, resolvableWith ns.inner s.inner k = false → s'.inner.depResolvable k = false := by
    intro k hk
    unfold resolvableWith at hk
    rw [Bool.or_eq_false_iff] at hk
    rw [Bool.eq_false_iff]
    intro hres
    rcases hresolve k hres with h | ⟨-, h⟩
    · rw [hk.1] at h
      cases h
    · rw [hk.2] at h
      cases h
  have hcase : ∀ (id : OpId) rec, s'.inner.pendingRecords[id]? = some rec →
      s.inner.pendingRecords[id]? = some rec ∨
        ∃ op, MovedAs ns.inner s.inner p.topicId (s.branchStores p.topicId p.genesis) id op rec := by
    intro id rec hrec
    by_cases hid : id ∈ m.moved
    · obtain ⟨op, rec', -, hrec', h⟩ := I.moved id hid
      rw [hrec] at hrec'
      cases hrec'
      exact Or.inr ⟨op, h⟩
    · exact Or.inl ((I.kept id hid).1.symm.trans hrec)
  refine ⟨I.ok, fun hK id rec hrec => ?_, fun hK id rec hrec d hd => ?_⟩
  · rcases hcase id rec hrec with h | ⟨op, h⟩
    · exact hold hK id rec h id (Or.inl rfl)
    · exact hmoved id h.unresolved
  · rcases hcase id rec hrec with h | ⟨op, h⟩
    · exact hold hK id rec h d (Or.inr hd)
    · obtain ⟨old, -, rfl⟩ := h.origin
      have hd' : resolvableWith ns.inner s.inner d = false := by simpa using (ExtTreeSet.mem_filter.1 hd).2
      exact hmoved d hd'

/-- An activation that copies what the active buffer holds or waits for leaves it unsettled. -/
theorem Activation.undisturbed {changes : BTreeMap (PeerId × ObligationKind) SyncObligation}
    {moves : List (ℕ × OpId × BTreeSet OpId)} (H : StorageOK K s)
    (A : Activation s reserve p expected effects ns changes moves s') (B : s'.inner.BufferOK True) :
    s.Undisturbed p := by
  intro ns' hns' id rec hrec k hk hcopied
  obtain rfl : ns = ns' := Option.some.inj (A.viewed.symm.trans hns')
  obtain ⟨m, I, -⟩ := A.moveInv H
  have hid : id ∉ m.moved := by
    intro h
    obtain ⟨op, rec', -, -, M⟩ := I.moved id h
    exact absurd (hrec.symm.trans M.fresh) (by simp)
  have hrec' : s'.inner.pendingRecords[id]? = some rec := (I.kept id hid).1.trans hrec
  have hstored : s'.inner.depResolvable k = true := by
    rw [A.eq]
    exact Records.depResolvable_copyTopic.2 (Or.inr hcopied)
  rcases hk with rfl | hk
  · rw [B.stored trivial k rec hrec'] at hstored
    cases hstored
  · rw [B.missing trivial id rec hrec' k hk] at hstored
    cases hstored

/-- **One operation keeps the pending indexes of every set of records in step.** -/
theorem StorageOK.step (H : StorageOK K s) (ev : StorageEvent)
    (hclean : K → ∀ p expected effects s', ev.op = .activateNamespace p expected effects →
      s.activateNamespace ev.reserve p expected effects = (.ok (), s') → s.Undisturbed p) :
    StorageOK K (s.step E ev) := by
  have hstep := storageStep E s ev
  generalize s.step E ev = s' at hstep
  have hall : ∀ (k : PeerId × TopicId) ns', s'.namespaces[k]? = some ns' →
      ns'.inner.BufferOK True ∧ ns'.topic.key = k ∧ ns'.topic.session ≤ s'.sessions := by
    intro k ns' hns'
    rcases hstep.namespace_cases hns' with ⟨ns, inner, hns, hup, hinner⟩ | ⟨hinner, hkey, hsession, -, hs⟩
    · refine ⟨hup.inner ▸ ?_, hup.key.trans (H.keys k ns hns),
        hup.session ▸ (H.sessions k ns hns).trans hstep.sessions_le⟩
      rcases hinner with rfl | ⟨v, w, -, -, -, rfl⟩
      · exact H.staged k ns hns
      · exact (w.run_buffer (H.staged k ns hns)).1
    · exact ⟨hinner ▸ bufferOK_empty, hkey, (hsession.trans hs.symm).le⟩
  refine ⟨?_, fun k ns h => (hall k ns h).1, fun k ns h => (hall k ns h).2.1, fun k ns h => (hall k ns h).2.2⟩
  cases hstep with
  | main w reserve => exact (w.run_buffer H.buffer).1
  | activated A => exact A.buffer H fun hK => hclean hK _ _ _ _ rfl A.ran
  | _ => exact H.buffer

theorem MemoryStorage.run_append (evs evs' : List StorageEvent) :
    s.run E (evs ++ evs') = (s.run E evs).run E evs' := by
  simp [MemoryStorage.run]

theorem MemoryStorage.run_snoc : s.run E (evs ++ [ev]) = (s.run E evs).step E ev := by
  simp [MemoryStorage.run]

/-- No activation of the run that succeeds copies what the active buffer holds or waits for at that moment. -/
def UndisturbedRun (E : Env) (s : MemoryStorage) (evs : List StorageEvent) : Prop :=
  ∀ pre p expected effects reserve post, evs = pre ++ ⟨.activateNamespace p expected effects, reserve⟩ :: post →
    ∀ s', (s.run E pre).activateNamespace reserve p expected effects = (.ok (), s') → (s.run E pre).Undisturbed p

theorem StorageOK.run (H : StorageOK K s) (evs : List StorageEvent) (hclean : K → UndisturbedRun E s evs) :
    StorageOK K (s.run E evs) := by
  induction evs using List.reverseRecOn with
  | nil => exact H
  | append_singleton evs ev ih =>
    rw [MemoryStorage.run_snoc]
    refine (ih fun hK pre p expected effects reserve post h => ?_).step ev fun hK p expected effects s' hop => ?_
    · exact hclean hK pre p expected effects reserve (post ++ [ev]) (by simp [h])
    · obtain ⟨op, reserve⟩ := ev
      subst hop
      exact hclean hK evs p expected effects reserve [] rfl s'

/-- In the active records and in every namespace, the waiter, ready and topic indexes and the usage totals
describe the buffered records, which lie within the quotas, and nothing buffered or waited for is stored. -/
def MemoryStorage.IndexExact (s : MemoryStorage) : Prop :=
  s.inner.BufferOK True ∧ ∀ (k : PeerId × TopicId) ns, s.namespaces[k]? = some ns → ns.inner.BufferOK True

/-- **The pending index is exact all along a run exactly when** no activation that succeeds copies an op that
the active buffer holds or waits for. -/
theorem pendingIndex_run (limits : StagingLimits) (evs : List StorageEvent) :
    (∀ pre, pre <+: evs → (MemoryStorage.run E { limits := limits } pre).IndexExact) ↔
      UndisturbedRun E { limits := limits } evs := by
  constructor
  · intro hexact pre p expected effects reserve post hevs s' hres
    have H : StorageOK False
      (MemoryStorage.run E { limits := limits } pre) := (storageOK_empty limits).run pre nofun
    obtain ⟨ns, changes, moves, A⟩ := activateNamespace_eq_ok hres
    -- the index is exact right after the activation as well
    have hnext := (hexact (pre ++ [⟨.activateNamespace p expected effects, reserve⟩]) ⟨post, by simp [hevs]⟩).1
    rw [MemoryStorage.run_snoc, MemoryStorage.step, MemoryStorage.apply] at hnext
    dsimp only at hnext
    rw [hres] at hnext
    exact A.undisturbed H hnext
  · rintro hclean pre ⟨rest, rfl⟩
    have H := (storageOK_empty limits).run (K := True) (E := E) pre
      fun _ pre' p expected effects reserve post h => by
      exact hclean pre' p expected effects reserve (post ++ rest) (by simp [h])
    exact ⟨H.buffer, H.staged⟩

/-! A topic staged by peer 2 while an op of it waits in the active buffer. -/

/-- The genesis of the staged topic. -/
def stagedGenesis : Op :=
  tableOp 1 1 1 none [] 0 (.genesis ⟨"note", ExtTreeSet.ofList [IdType.ofNat 1, IdType.ofNat 2] compare, ⟨∅, 8⟩⟩)

/-- An event on the genesis. -/
def stagedEvent : Op := tableOp 2 1 2 (some 1) [1] 1 (.event ⟨"note", []⟩)

/-- An event that depends on the first one. -/
def waitingEvent : Op := tableOp 3 1 3 (some 2) [2] 2 (.event ⟨"note", []⟩)

/-- The state after the two staged ops. -/
def stagedState : TopicState :=
  { genesisState stagedGenesis ⟨"note", ExtTreeSet.ofList [IdType.ofNat 1, IdType.ofNat 2] compare, ⟨∅, 8⟩⟩ with
    heads := {stagedEvent.id} }

/-- The batch the namespace admits. -/
def stagedBatch : AdmittedBatch where
  topicId := IdType.ofNat 1
  expectedHeads := ∅
  expectedTopicState := none
  entries := [(stagedGenesis, metaOf stagedGenesis ∅),
    (stagedEvent, metaOf stagedEvent (ActorClock.observe ∅ (IdType.ofNat 1) 1))]
  heads := {stagedEvent.id}
  topicState := some stagedState
  effects := ⟨[]⟩

/-- The namespace of peer 2. -/
def stagedTopic : ProvisionalTopic := ⟨IdType.ofNat 2, IdType.ofNat 1, stagedGenesis.id, 1, 0, false, 0, 0⟩

/-- Stage the topic and activate it. -/
def stagedRun : List StorageEvent :=
  [{ op := .openNamespace (IdType.ofNat 2) (IdType.ofNat 1) stagedGenesis.id 0 },
    { op := .write (some stagedTopic.viewKey) (.admittedBatch stagedBatch) },
    { op := .activateNamespace stagedTopic stagedState ⟨[]⟩ }]

/-- The run with an op of the topic buffered in the active records before, waiting for `dep`. -/
def bufferedRun (dep : OpId) : List StorageEvent :=
  { op := .write none (.putPendingBound (IdType.ofNat 2) waitingEvent
    (pendingMetaFor waitingEvent {dep}) none) } :: stagedRun

/-- The buffered op waits for an op that the activation copies. -/
def disturbedRun : List StorageEvent := bufferedRun stagedEvent.id

/-- The buffered op waits for an op that nobody staged. -/
def apartRun : List StorageEvent := bufferedRun (IdType.ofNat 9)

theorem apartRun_undisturbed : UndisturbedRun (Env.ofTable []) {} apartRun := by
  intro pre p expected effects reserve post h s' _
  match pre with
  | [] => cases h
  | [_] => cases h
  | [_, _] => cases h
  | [a, b, c] =>
    cases h
    have hapart : ((MemoryStorage.run (Env.ofTable []) {} (apartRun.take 3)).viewed stagedTopic.viewKey).all
      (fun ns =>
        (MemoryStorage.run (Env.ofTable []) {} (apartRun.take 3)).inner.pendingRecords.toList.all fun e =>
          (e.1 :: e.2.missing.toList).all fun k => !(ns.inner.listOpIds stagedTopic.topicId).contains k) =
            true := by
      decide +kernel
    simp only [Option.all_eq_true, List.all_eq_true, Prod.forall, ExtTreeMap.mem_toList_iff_getElem?_eq_some,
      List.mem_cons, ExtTreeSet.mem_toList, Bool.not_eq_true'] at hapart
    intro ns hns id rec hrec k hk hcopied
    have := hapart ns hns id rec hrec k hk
    rw [ExtTreeSet.contains_iff_mem.2 hcopied.1] at this
    cases this
  | _ :: _ :: _ :: _ :: pre =>
    have := congrArg List.length h
    simp [apartRun, bufferedRun, stagedRun] at this

/-- The op stays buffered beside the activated topic. -/
theorem pendingIndex_apartRun : (MemoryStorage.run (Env.ofTable []) {} apartRun).IndexExact ∧
    (MemoryStorage.run (Env.ofTable []) {} apartRun).inner.pendingRecords.contains waitingEvent.id = true :=
  ⟨(pendingIndex_run .memory apartRun).2 apartRun_undisturbed apartRun List.prefix_rfl, by decide +kernel⟩

/-- After the activation the buffered op still waits for an op that is stored. -/
theorem pendingIndex_disturbedRun : ¬(MemoryStorage.run (Env.ofTable []) {} disturbedRun).IndexExact := by
  rintro ⟨B, -⟩
  have hwaits : ((MemoryStorage.run (Env.ofTable []) {} disturbedRun).inner.pendingRecords[waitingEvent.id]?.map
      fun rec => decide (stagedEvent.id ∈ rec.missing)) = some true := by decide +kernel
  have hstored : (MemoryStorage.run (Env.ofTable []) {} disturbedRun).inner.depResolvable stagedEvent.id =
    true := by decide +kernel
  obtain ⟨rec, hrec, hmem⟩ := Option.map_eq_some_iff.1 hwaits
  rw [B.missing trivial _ rec hrec _ (of_decide_eq_true hmem)] at hstored
  cases hstored

/-! ## Ended sessions -/

theorem MemoryStorage.viewed_eq_none : s.viewed v = none ↔
    ∀ ns, s.namespaces[(v.source, v.topicId)]? = some ns → ns.topic.session ≠ v.session := by
  rw [Option.eq_none_iff_forall_ne_some]
  constructor
  · intro h ns hns hsession
    exact h ns (MemoryStorage.viewed_eq_some.2 ⟨hns, hsession⟩)
  · intro h ns hns
    obtain ⟨hns, hsession⟩ := MemoryStorage.viewed_eq_some.1 hns
    exact h ns hns hsession

/-- An operation revives no session that was handed out. -/
theorem StorageStep.refused_kept (h : StorageStep E s ev s') (hv : v.session ≤ s.sessions)
    (hnone : s.viewed v = none) :
    s'.viewed v = none ∧ v.session ≤ s'.sessions := by
  refine ⟨MemoryStorage.viewed_eq_none.2 fun ns' hns' => ?_, hv.trans h.sessions_le⟩
  rcases h.namespace_cases hns' with ⟨ns, inner, hns, hup, -⟩ | ⟨-, -, hsession, -⟩
  · rw [hup.session]
    exact MemoryStorage.viewed_eq_none.1 hnone ns hns
  · -- a session that is handed out is new
    omega

/-- **A view of an ended session is refused for good**, whatever the store goes through afterwards. -/
theorem refused_run (hv : v.session ≤ s.sessions) (hnone : s.viewed v = none) (evs : List StorageEvent) :
    (s.run E evs).viewed v = none ∧ v.session ≤ (s.run E evs).sessions := by
  induction evs using List.reverseRecOn with
  | nil => exact ⟨hnone, hv⟩
  | append_singleton evs ev ih =>
    rw [MemoryStorage.run_snoc]
    exact (storageStep E _ ev).refused_kept ih.2 ih.1

end Irokle
