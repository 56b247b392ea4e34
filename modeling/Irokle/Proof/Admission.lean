import Irokle.Proof.Apart
import Irokle.Proof.Batch
import Irokle.Spec.Receive

/-!
# What an admission commits

`Reported` relates the store before and after a call to what the call reports: the ids it accepted
are exactly those whose records became complete, and its evictions are the resets it committed.
`Quiet` says that nothing but the buffer changed.

* `admitOpsBatch_spec`, `admitWithRetry_spec` — one batch reports what it committed, and an error
  without a report means that nothing was committed;
* `LogOK` — the invariant of an oplog, kept by every batch.
-/

namespace Irokle

open Std Outcome Causal List

/-- Nothing but the buffer changed. -/
structure Quiet (before after : MemoryInner) : Prop where
  records : after.toRecords = before.toRecords
  evidence : after.toEvidence = before.toEvidence
  evictions : after.evictions = before.evictions
  sealedTopics : after.sealedTopics = before.sealedTopics

/-- The journal once these evictions are recorded. -/
def journalAll (E : Env) (journal : BTreeMap EvictionKey TopicEviction) (evictions : List TopicEviction) :
    BTreeMap EvictionKey TopicEviction :=
  evictions.foldl (fun j e => match journalledEviction E (some e) with
    | some (key, e) => j.insert key e
    | none => j) journal

/-- `e` records what a reset discarded: the branch the topic was on before, which lost to the one it
is on after. -/
structure ResetBy (before after : MemoryInner) (e : TopicEviction) : Prop where
  before : ∃ st, before.topicState e.topicId = some st ∧ e.winningGenesis < st.genesis ∧
    e = extractEviction before.toRecords e.topicId st e.winningGenesis
  after : ∃ st, after.topicState e.topicId = some st ∧ st.genesis = e.winningGenesis

/-- A call that took ops satisfying `P` accepted `accepted` and committed the resets `evictions`. -/
structure Reported (E : Env) (P : Op → Prop) (before : MemoryInner) (accepted : BTreeSet OpId)
    (evictions : List TopicEviction) (after : MemoryInner) : Prop where
  stored : ∀ (id : OpId) op, after.ops[id]? = some op → id ∈ accepted ∧ P op ∨ before.ops[id]? = some op
  fresh : ∀ id ∈ accepted, before.ops[id]? = none ∧ ∃ op, after.ops[id]? = some op
  kept : ∀ (id : OpId) op, before.ops[id]? = some op → (∀ e ∈ evictions, e.topicId ≠ op.body.topicId) →
    after.ops[id]? = some op
  lost : ∀ (id : OpId) op, before.ops[id]? = some op → ∀ e ∈ evictions, e.topicId = op.body.topicId →
    after.ops[id]? = none
  resets : ∀ e ∈ evictions, ResetBy before after e
  winner : ∀ e ∈ evictions, ∃ w, P w ∧ isStructuralGenesis w = true ∧ w.id = e.winningGenesis
  single : evictions.length ≤ 1
  journal : after.evictions = journalAll E before.evictions evictions
  genesis : ∀ t st, before.topicState t = some st → (∀ e ∈ evictions, e.topicId ≠ t) →
    ∃ st', after.topicState t = some st' ∧ st'.genesis = st.genesis
  peerAcks : ∀ (p : PeerId) (t : TopicId) ack, after.peerAcks[(p, t)]? = some ack →
    before.peerAcks[(p, t)]? = some ack ∧ ∀ e ∈ evictions, e.topicId ≠ t
  keyed : before.toEvidence.Keyed → after.toEvidence.Keyed
  sealedTopics : after.sealedTopics = before.sealedTopics

/-- The invariant of an oplog: sound records, a sound buffer, and projections that are states. `P`
holds of every buffered op, which is valid and waited for something. -/
structure LogOK (E : Env) (K : Prop) (P : Op → Prop) (log : Oplog) : Prop where
  records : RecordsOK E log.inner.toRecords
  buffer : BufferOK K log.inner.toRecords log.inner.toPendingIndex
  cache : CacheOK E log.cache
  pending : ∀ (id : OpId) op, log.inner.pendingOps[id]? = some op → P op ∧ E.Valid op ∧ op.body.deps ≠ ∅
  waits : WaitsForDeps log.inner.toPendingIndex
  apart : Apart E log.inner.toRecords log.inner.toPendingIndex

variable {E : Env} {V : View} {K : Prop} {P : Op → Prop} {n : ℕ} {r rv : Records} {t : TopicId} {g x y op : Op}
  {γ : TopicGenesis} {a b c inner inner' : MemoryInner} {log log' : Oplog} {accepted acc acc' : BTreeSet OpId}
  {evictions : List TopicEviction} {ops : List Op} {verified : BTreeSet OpId} {source : Option PeerId}
  {effects : Option ReceiveEffects}

theorem logOK_empty : LogOK E K P {} where
  records := recordsOK_empty
  buffer := bufferOK_empty
  cache := by
    intro id st h
    simp at h
  pending := by simp
  waits := by simp [WaitsForDeps]
  apart := apart_empty

theorem Quiet.refl (a : MemoryInner) : Quiet a a := ⟨rfl, rfl, rfl, rfl⟩

theorem Quiet.trans (h : Quiet a b) (h' : Quiet b c) : Quiet a c :=
  ⟨h'.1.trans h.1, h'.2.trans h.2, h'.3.trans h.3, h'.4.trans h.4⟩

theorem Quiet.reported (h : Quiet a b) : Reported E P a ∅ [] b where
  stored id op hop := Or.inr (by rwa [h.records] at hop)
  fresh := by simp
  kept id op hop _ := by rwa [h.records]
  lost := by simp
  resets := by simp
  winner := by simp
  single := by simp
  journal := h.evictions
  genesis t st hst _ := ⟨st, by rwa [h.records], rfl⟩
  peerAcks p t ack hack := ⟨by rwa [h.evidence] at hack, by simp⟩
  keyed H := h.evidence ▸ H
  sealedTopics := h.sealedTopics

theorem Reported.quiet (h : Reported E P a acc evictions b) (h' : Quiet b c) :
    Reported E P a acc evictions c where
  stored := by rw [h'.records]; exact h.stored
  fresh := by rw [h'.records]; exact h.fresh
  kept := by rw [h'.records]; exact h.kept
  lost := by rw [h'.records]; exact h.lost
  resets e he := ⟨(h.resets e he).before, by rw [h'.records]; exact (h.resets e he).after⟩
  winner := h.winner
  single := h.single
  journal := h'.evictions.trans h.journal
  genesis := by rw [h'.records]; exact h.genesis
  peerAcks := by rw [h'.evidence]; exact h.peerAcks
  keyed := by rw [h'.evidence]; exact h.keyed
  sealedTopics := h'.sealedTopics.trans h.sealedTopics

/-- An op determines the genesis of its branch. -/
theorem RecordsOK.genesis_eq {r' : Records} {st st' : TopicState} (R : RecordsOK E r) (R' : RecordsOK E r')
    (h : op ∈ r.admitted t) (h' : op ∈ r'.admitted t) (hst : r.topicState t = some st)
    (hst' : r'.topicState t = some st') : st.genesis = st'.genesis := by
  obtain ⟨g, γ, B, hstate⟩ := R.state t st hst
  obtain ⟨g', γ', B', hstate'⟩ := R'.state t st' hst'
  rw [hstate.genesis, hstate'.genesis]
  have hg : g ∈ r'.admitted t := by
    by_cases hop : op = g
    · exact hop ▸ h'
    · exact B'.past_subset h' (B.root_mem_past h hop)
  rw [B'.eq_root_of_payload hg B.payload]

/-- An op of a branch that was reset does not come back. -/
theorem Reported.not_stored (R : RecordsOK E a.toRecords) (R' : RecordsOK E c.toRecords) {e : TopicEviction}
    (he : ResetBy a c e) {id : OpId} (hop : a.ops[id]? = some op) (ht : e.topicId = op.body.topicId) :
    c.ops[id]? = none := by
  cases hc : c.ops[id]? with
  | none => rfl
  | some x =>
    obtain ⟨⟨st, hst, hlt, -⟩, st', hst', hgen⟩ := he
    have hx : x = op := (R'.valid hc).eq_of_id (R.valid hop) ((R'.opId _ _ hc).trans (R.opId _ _ hop).symm)
    subst hx
    rw [ht] at hst hst'
    have hid := R.opId _ _ hop
    subst hid
    have := R.genesis_eq R' (R.mem_admitted hop) (R'.mem_admitted hc) hst hst'
    rw [this, hgen] at hlt
    exact absurd hlt (lt_irrefl _)

/-- A later part of a call that commits no reset. -/
theorem Reported.trans (R : RecordsOK E a.toRecords) (R' : RecordsOK E c.toRecords)
    (h : Reported E P a acc evictions b) (h' : Reported E P b acc' [] c) :
    Reported E P a (acc ∪ acc') evictions c := by
  have hresets : ∀ e ∈ evictions, ResetBy a c e := by
    intro e he
    obtain ⟨hbefore, st, hst, hgen⟩ := h.resets e he
    obtain ⟨st', hst', hgen'⟩ := h'.genesis _ st hst (by simp)
    exact ⟨hbefore, st', hst', hgen'.trans hgen⟩
  refine ⟨fun id op hop => ?_, fun id hid => ?_, fun id op hop hev =>
    h'.kept id op (h.kept id op hop hev) (by simp),
    fun id op hop e he ht => Reported.not_stored R R' (hresets e he) hop ht, hresets, h.winner, h.single,
    h'.journal.trans h.journal, fun t st hst hev => ?_,
    fun p t ack hack => h.peerAcks p t ack (h'.peerAcks p t ack hack).1, fun H => h'.keyed (h.keyed H),
    h'.sealedTopics.trans h.sealedTopics⟩
  · rcases h'.stored id op hop with ⟨hin, hP⟩ | hop
    · exact Or.inl ⟨ExtTreeSet.mem_union_iff.2 (Or.inr hin), hP⟩
    · exact (h.stored id op hop).imp_left fun ⟨hin, hP⟩ => ⟨ExtTreeSet.mem_union_iff.2 (Or.inl hin), hP⟩
  · rcases ExtTreeSet.mem_union_iff.1 hid with hid | hid
    · obtain ⟨hnone, op, hop⟩ := h.fresh id hid
      exact ⟨hnone, op, h'.kept id op hop (by simp)⟩
    · obtain ⟨hnone, op, hop⟩ := h'.fresh id hid
      refine ⟨?_, op, hop⟩
      cases ha : a.ops[id]? with
      | none => rfl
      | some x =>
        by_cases hev : ∀ e ∈ evictions, e.topicId ≠ x.body.topicId
        · rw [h.kept id x ha hev] at hnone
          cases hnone
        · push Not at hev
          obtain ⟨e, he, ht⟩ := hev
          rw [Reported.not_stored R R' (hresets e he) ha ht] at hop
          cases hop
  · obtain ⟨st', hst', hgen⟩ := h.genesis t st hst hev
    obtain ⟨st'', hst'', hgen'⟩ := h'.genesis t st' hst' (by simp)
    exact ⟨st'', hst'', hgen'.trans hgen⟩

/-! ## Committed batches -/

/-- While no op of a topic goes away, its genesis stays. -/
theorem RecordsOK.genesis_kept {r' : Records} {st : TopicState} (R : RecordsOK E r) (R' : RecordsOK E r')
    (hsub : r.admitted t ⊆ r'.admitted t) (hst : r.topicState t = some st) :
    ∃ st', r'.topicState t = some st' ∧ st'.genesis = st.genesis := by
  obtain ⟨g, γ, B, -⟩ := R.state t st hst
  cases hst' : r'.topicState t with
  | none =>
    have := hsub B.root
    rw [R'.noState t hst'] at this
    exact this.elim
  | some st' => exact ⟨st', rfl, (R.genesis_eq R' B.root (hsub B.root) hst hst').symm⟩

theorem Grows.admitted_subset {l : List (Op × OpMeta)} (h : Grows E t r l rv) {t' : TopicId} :
    r.admitted t' ⊆ rv.admitted t' := fun _ hx => ⟨h.getElem?_ops.2 (Or.inl hx.1), hx.2⟩

variable {batch : AdmittedBatch}

/-- A committed batch reports its entries. -/
theorem Committed.reported (R : RecordsOK E inner.toRecords) (H : Batched E inner.toRecords t batch rv)
    (C : Committed E K inner batch rv inner') (hev : inner'.evictions = inner.evictions)
    (hsl : inner'.sealedTopics = inner.sealedTopics) (hP : ∀ e ∈ batch.entries, P e.1)
    (hacc : ∀ id, id ∈ accepted ↔ ∃ e ∈ batch.entries, e.1.id = id) : Reported E P inner accepted [] inner' where
  stored id op hop := by
    rw [C.agree.ops] at hop
    rcases H.grows.getElem?_ops.1 hop with hop | ⟨e, he, rfl, hid⟩
    · exact Or.inr hop
    · exact Or.inl ⟨(hacc id).2 ⟨e, he, hid⟩, hP e he⟩
  fresh id hid := by
    obtain ⟨e, he, rfl⟩ := (hacc id).1 hid
    refine ⟨H.grows.new e he, e.1, ?_⟩
    rw [C.agree.ops]
    exact H.grows.getElem?_ops.2 (Or.inr ⟨e, he, rfl, rfl⟩)
  kept id op hop _ := by
    rw [C.agree.ops]
    exact H.grows.getElem?_ops.2 (Or.inl hop)
  lost := by simp
  resets := by simp
  winner := by simp
  single := by simp
  journal := hev
  genesis t' st hst _ := by
    rw [C.agree.state]
    exact R.genesis_kept (H.grows.ok R) H.grows.admitted_subset hst
  peerAcks p t' ack hack := ⟨C.peerAcks _ _ hack, by simp⟩
  keyed := C.keyed
  sealedTopics := hsl

/-- The plan of a reset on these records: the topic loses to a smaller genesis of the batch. -/
structure PlanOK (r : Records) (ops : List Op) (t : TopicId) (plan : ResetPlan) : Prop where
  state : r.topicState t = some plan.expectedState
  winner : ∃ w ∈ ops, w.body.topicId = t ∧ isStructuralGenesis w = true ∧ w.id < plan.expectedState.genesis ∧
    samePeers r plan.expectedState.genesis w = true ∧ plan.eviction = extractEviction r t plan.expectedState w.id

theorem journalAll_singleton {evictions ev : BTreeMap EvictionKey TopicEviction} {e : TopicEviction}
    {reserve : Result Unit} (h : journal E reserve evictions (some e) = .ok ev) :
    ev = journalAll E evictions [e] := by
  have hj := journal_post.of_ok h
  unfold journalAll
  simp only [foldl_cons, foldl_nil]
  cases hkey : journalledEviction E (some e) with
  | none =>
    simp only [journal, hkey] at h
    exact (Except.ok.inj h).symm
  | some k => exact hj k hkey

/-- A committed reset reports the winning branch and what it discarded. -/
theorem Committed.reported_reset {inner₁ : MemoryInner} {plan : ResetPlan} {reserve : Result Unit} {reset : Bool}
    {built : BuiltBatch} (R : RecordsOK E inner.toRecords) (hreset : reset = true)
    (H : Built E inner.toRecords reset ops built t rv) (hplan : PlanOK inner.toRecords ops t plan)
    (R₁ : ResetTo K inner t inner₁) (C : Committed E K inner₁ built.batch rv inner')
    (hj : journal E reserve inner.evictions (some plan.eviction) = .ok inner'.evictions)
    (hsl : inner'.sealedTopics = inner.sealedTopics) (hP : ∀ op ∈ ops, P op) (hvalid : ∀ op ∈ ops, E.Valid op) :
    Reported E P inner built.accepted [plan.eviction] inner' := by
  subst hreset
  obtain ⟨w, hw, -, hstr, hlt, -, hevict⟩ := hplan.winner
  have htopic : plan.eviction.topicId = t := by rw [hevict]; rfl
  have hwinning : plan.eviction.winningGenesis = w.id := by rw [hevict]; rfl
  have hgrows : Grows E t (inner.toRecords.resetTopic t) built.batch.entries rv := H.batched.grows
  have Rv := hgrows.ok (R.resetTopic t)
  have hafter : ∀ id : OpId, inner'.ops[id]? = rv.ops[id]? := fun id => by rw [C.agree.ops]
  have hbase : ∀ {id : OpId} {op}, (inner.toRecords.resetTopic t).ops[id]? = some op ↔
      inner.ops[id]? = some op ∧ op.body.topicId ≠ t := R.getElem?_resetTopic
  have hresets : ResetBy inner inner' plan.eviction := by
    refine ⟨⟨plan.expectedState, htopic ▸ hplan.state, hwinning ▸ hlt, by rw [htopic, hwinning]; exact hevict⟩,
      ?_⟩
    rw [htopic, hwinning, C.agree.state]
    obtain ⟨x, hx⟩ := H.genesis w hw hstr
    obtain rfl := Rv.eq_of_valid hx (hvalid w hw)
    have hmem : x ∈ rv.admitted t := ⟨hx, H.topic x hw⟩
    obtain ⟨g, γ, st', hst', -⟩ := Rv.branch_of_mem hmem
    obtain ⟨g, γ, B, hstate⟩ := Rv.state t st' hst'
    obtain ⟨⟨γ', hγ'⟩, -⟩ := isStructuralGenesis_iff.1 hstr
    exact ⟨st', hst', by rw [hstate.genesis, B.eq_root_of_payload hmem hγ']⟩
  have Rafter : RecordsOK E inner'.toRecords := Rv.of_agree C.agree
  refine ⟨fun id op hop => ?_, fun id hid => ?_, fun id op hop hev => ?_, fun id op hop e he ht => ?_, ?_,
    ?_, by simp, journalAll_singleton hj, fun t' st hst hev => ?_, fun p t' ack hack => ?_,
    fun H => C.keyed (R₁.keyed H), hsl⟩
  · rw [hafter] at hop
    rcases hgrows.getElem?_ops.1 hop with hop | ⟨e, he, rfl, hid⟩
    · exact Or.inr (hbase.1 hop).1
    · exact Or.inl ⟨(H.accepted id).2 ⟨e, he, hid⟩, hP e.1 (H.entries e he)⟩
  · obtain ⟨e, he, rfl⟩ := (H.accepted id).1 hid
    have hheld : inner'.ops[e.1.id]? = some e.1 := by
      rw [hafter]
      exact hgrows.getElem?_ops.2 (Or.inr ⟨e, he, rfl, rfl⟩)
    refine ⟨?_, e.1, hheld⟩
    cases ha : inner.ops[e.1.id]? with
    | none => rfl
    | some x =>
      obtain rfl := R.eq_of_valid ha (hvalid e.1 (H.entries e he))
      have ht : e.1.body.topicId = t := H.topic e.1 (H.entries e he)
      rw [Reported.not_stored R Rafter hresets ha (htopic.trans ht.symm)] at hheld
      cases hheld
  · rw [hafter]
    exact hgrows.getElem?_ops.2
      (Or.inl (hbase.2 ⟨hop, fun ht => hev plan.eviction (by simp) (htopic.trans ht.symm)⟩))
  · rw [mem_singleton.1 he] at ht
    exact Reported.not_stored R Rafter hresets hop ht
  · intro e he
    rw [mem_singleton.1 he]
    exact hresets
  · intro e he
    rw [mem_singleton.1 he]
    exact ⟨w, hP w hw, hstr, hwinning.symm⟩
  · have hne : t' ≠ t := fun h => hev plan.eviction (by simp) (htopic.trans h.symm)
    refine R.genesis_kept Rafter (fun x hx => ⟨?_, hx.2⟩) hst
    rw [hafter]
    exact hgrows.getElem?_ops.2 (Or.inl (hbase.2 ⟨hx.1, hx.2 ▸ hne⟩))
  · have hack₁ := C.peerAcks _ _ hack
    rw [R₁.peerAcks, ExtTreeMap.getElem?_filter', Option.filter_eq_some_iff] at hack₁
    obtain ⟨hin, hne⟩ := hack₁
    refine ⟨hin, fun e he => ?_⟩
    rw [mem_singleton.1 he, htopic]
    exact fun h => of_decide_eq_true hne h.symm

/-! ## One batch -/

theorem Env.reserve_fromFault {k : ℕ} {e : Error} (h : E.reserve n k = .error e) : E.FromFault e := by
  unfold Env.reserve at h
  split at h
  · rename_i fault hfault
    cases h
    exact Fault.error_fromFault fun hc => Or.inl ⟨n, k, hc ▸ hfault⟩
  · cases h

theorem Error.refuses_of_isLimit {e : Error} (h : e.isLimit = true) : e.Refuses True := by
  cases e <;> trivial

theorem CommitFails.refuses {e : Error} (h : CommitFails (E.reserve n) batch e) : e.Refuses True := by
  cases h with
  | limit h => exact Error.refuses_of_isLimit h
  | fault h => exact (Env.reserve_fromFault h).refuses
  | effects _ he => rcases he with rfl | ⟨m, rfl⟩ <;> trivial

/-- A write to the buffer that adds no op and no wait. -/
structure Shrinks (p p' : PendingIndex) : Prop where
  ops : ∀ (id : OpId) op, p'.pendingOps[id]? = some op → p.pendingOps[id]? = some op
  missing : ∀ (id : OpId) rec', p'.pendingRecords[id]? = some rec' →
    ∃ rec, p.pendingRecords[id]? = some rec ∧ ∀ d ∈ rec'.missing, d ∈ rec.missing

theorem Shrinks.refl (p : PendingIndex) : Shrinks p p := ⟨fun _ _ h => h, fun _ rec h => ⟨rec, h, fun _ h => h⟩⟩

theorem Shrinks.trans {p p' p'' : PendingIndex} (h : Shrinks p p') (h' : Shrinks p' p'') : Shrinks p p'' where
  ops id op hop := h.ops id op (h'.ops id op hop)
  missing id rec'' hrec := by
    obtain ⟨rec', hrec', hsub'⟩ := h'.missing id rec'' hrec
    obtain ⟨rec, hrec, hsub⟩ := h.missing id rec' hrec'
    exact ⟨rec, hrec, fun d hd => hsub d (hsub' d hd)⟩

theorem Shrinks.waits {p p' : PendingIndex} (h : Shrinks p p') (hw : WaitsForDeps p) : WaitsForDeps p' := by
  intro id op rec' hop hrec d hd
  obtain ⟨rec, hrec, hsub⟩ := h.missing id rec' hrec
  exact hw id op rec (h.ops id op hop) hrec d (hsub d hd)

theorem Absorbed.shrinks {p p' : PendingIndex} {ids : List OpId} (h : Absorbed p ids p') : Shrinks p p' where
  ops id op hop := by
    rw [h.ops] at hop
    exact (Option.ite_none_left_eq_some.1 hop).2
  missing id rec' hrec := by
    rw [h.records] at hrec
    obtain ⟨rec, hold, rfl⟩ := Option.map_eq_some_iff.1 (Option.ite_none_left_eq_some.1 hrec).2
    exact ⟨rec, hold, fun d hd => ExtTreeSet.mem_of_mem_filter hd⟩

theorem Shrinks.of_subset {p p' : PendingIndex}
    (hrec : ∀ (k : OpId) rec, p'.pendingRecords[k]? = some rec → p.pendingRecords[k]? = some rec)
    (hops : ∀ (k : OpId) op, p'.pendingOps[k]? = some op → p.pendingOps[k]? = some op) : Shrinks p p' :=
  ⟨hops, fun id rec h => ⟨rec, hrec id rec h, fun _ h => h⟩⟩

theorem Thinned.shrinks {p p' : PendingIndex} (h : Thinned p p') : Shrinks p p' := .of_subset h.records h.ops

theorem ResetTo.shrinks (h : ResetTo K inner t inner') : Shrinks inner.toPendingIndex inner'.toPendingIndex := by
  refine .of_subset (fun k rec hk => ?_) fun k op hk => ?_
  · rw [h.pending] at hk
    exact (Option.ite_none_left_eq_some.1 hk).2
  · rw [h.pendingOps] at hk
    exact (Option.ite_none_left_eq_some.1 hk).2

/-- What committing a built batch leaves. -/
structure CommitLeaves (E : Env) (K : Prop) (P : Op → Prop) (log : Oplog) (built : BuiltBatch)
    (plan : Option ResetPlan) (rv : Records) (log' : Oplog) : Prop where
  agree : rv.Agree E log'.inner.toRecords
  buffer : BufferOK K log'.inner.toRecords log'.inner.toPendingIndex
  cache : CacheOK E log'.cache
  reported : Reported E P log.inner built.accepted (plan.map (·.eviction)).toList log'.inner
  shrinks : Shrinks log.inner.toPendingIndex log'.inner.toPendingIndex
  absorbed : plan = none →
    Absorbed log.inner.toPendingIndex (built.batch.entries.map (·.1.id)) log'.inner.toPendingIndex
  gone : ∀ id ∈ built.accepted, log'.inner.pendingRecords[id]? = none
  debug : log'.debug = log.debug
  apart : Apart E log'.inner.toRecords log'.inner.toPendingIndex
  idle : plan = none → built.accepted = ∅ → log' = log

theorem Built.accepted_entries {built : BuiltBatch} {reset : Bool}
    (H : Built E r reset ops built t rv) (id : OpId) (hid : id ∈ built.accepted) :
    id ∈ built.batch.entries.map (·.1.id) := by
  obtain ⟨e, he, rfl⟩ := (H.accepted id).1 hid
  exact mem_map_of_mem he

/-- A write that changed nothing but the counters. -/
structure Idle (log log' : Oplog) : Prop where
  inner : log'.inner = log.inner
  cache : log'.cache = log.cache
  debug : log'.debug = log.debug

theorem Idle.refl (log : Oplog) : Idle log log := ⟨rfl, rfl, rfl⟩

theorem Idle.trans {log'' : Oplog} (h : Idle log log') (h' : Idle log' log'') : Idle log log'' :=
  ⟨h'.inner.trans h.inner, h'.cache.trans h.cache, h'.debug.trans h.debug⟩

theorem Idle.logOK (h : Idle log log') (L : LogOK E K P log) : LogOK E K P log' :=
  ⟨h.inner ▸ L.records, h.inner ▸ L.buffer, h.cache ▸ L.cache, h.inner ▸ L.pending, h.inner ▸ L.waits,
    h.inner ▸ L.apart⟩

theorem Idle.quiet (h : Idle log log') : Quiet log.inner log'.inner := by
  rw [h.inner]
  exact .refl _

/-- A batch was written. -/
structure Landed (E : Env) (K : Prop) (log : Oplog) (batch : AdmittedBatch) (rv : Records)
    (log' : Oplog) : Prop where
  committed : Committed E K log.inner batch rv log'.inner
  evictions : log'.inner.evictions = log.inner.evictions
  sealedTopics : log'.inner.sealedTopics = log.inner.sealedTopics
  cache : log'.cache = log.cache
  debug : log'.debug = log.debug

theorem Landed.logOK {batch : AdmittedBatch} (h : Landed E K log batch rv log') (L : LogOK E K P log)
    (H : Batched E log.inner.toRecords t batch rv) : LogOK E K P log' where
  records := (H.grows.ok L.records).of_agree h.committed.agree
  buffer := h.committed.buffer
  cache := by rw [h.cache]; exact L.cache
  pending id op hop := L.pending id op (h.committed.absorbed.shrinks.ops id op hop)
  waits := h.committed.absorbed.shrinks.waits L.waits
  apart := L.apart.absorb L.records L.buffer.ok L.waits
    (fun id op hop => (L.pending id op hop).2.1) H h.committed.agree h.committed.absorbed

/-- A batch that grows the records is written, or nothing changes. -/
theorem putAdmittedBatch_spec {batch : AdmittedBatch} (V : View) (L : LogOK E K P log)
    (H : Batched E log.inner.toRecords t batch rv) :
    (∃ e log', log.putAdmittedBatch E V batch = (.error e, log') ∧ Idle log log' ∧
        CommitFails (E.reserve log.writes) batch e) ∨
      ∃ log', log.putAdmittedBatch E V batch = (.ok (), log') ∧ Landed E K log batch rv log' := by
  unfold Oplog.putAdmittedBatch
  rcases H.commit (E.reserve log.writes) V.quota L.records L.buffer with
    ⟨e, hfail, hres⟩ | ⟨inner', hres, C, hev, hsl⟩
  · rw [hres]
    exact Or.inl ⟨e, _, rfl, ⟨rfl, rfl, rfl⟩, hfail⟩
  · rw [hres]
    exact Or.inr ⟨_, rfl, C, hev, hsl, rfl, rfl⟩

/-- **A built batch is committed with its report, or nothing changes.** -/
theorem commitBuilt_spec {built : BuiltBatch} {plan : Option ResetPlan} (L : LogOK E K P log)
    (H : Built E log.inner.toRecords plan.isSome ops built t rv)
    (hplan : ∀ p, plan = some p → PlanOK log.inner.toRecords ops t p) (hP : ∀ op ∈ ops, P op)
    (hvalid : ∀ op ∈ ops, E.Valid op) :
    (∃ e log', log.commitBuilt E V built plan = (.error e, log') ∧ Idle log log' ∧ e.Refuses True ∧
        (plan = none → CommitFails (E.reserve log.writes) built.batch e)) ∨
      ∃ log', log.commitBuilt E V built plan = (.ok (), log') ∧ CommitLeaves E K P log built plan rv log' := by
  unfold Oplog.commitBuilt
  cases plan with
  | none =>
    have H' : Batched E log.inner.toRecords t built.batch rv := H.batched
    dsimp only
    split
    · rename_i hempty
      have hnil : built.batch.entries = [] := List.isEmpty_iff.1 hempty
      have hgrows := H'.grows
      rw [hnil] at hgrows
      have hacc : built.accepted = ∅ := by
        refine ExtTreeSet.eq_empty_iff_forall_not_mem.2 fun id hid => ?_
        obtain ⟨e, he, -⟩ := (H.accepted id).1 hid
        simp [hnil] at he
      refine Or.inr ⟨log, rfl, ?_, L.buffer, L.cache, ?_, .refl _, fun _ => ?_, by simp [hacc], rfl, L.apart,
        fun _ _ => rfl⟩
      · generalize hl : ([] : List (Op × OpMeta)) = l at hgrows
        cases hgrows with
        | nil => exact .refl _
        | snoc => simp at hl
      · rw [hacc]
        exact (Quiet.refl _).reported
      · rw [hnil]
        exact .nil
    · rename_i hentries
      have hacc : built.accepted ≠ ∅ := by
        obtain ⟨e, he⟩ := exists_mem_of_ne_nil _ fun h => hentries (List.isEmpty_iff.2 h)
        exact BTreeSet.ne_empty_of_mem ((H.accepted e.1.id).2 ⟨e, he, rfl⟩)
      rcases putAdmittedBatch_spec V L H' with ⟨e, log', hres, hidle, hfail⟩ | ⟨log', hres, hl⟩
      · exact Or.inl ⟨e, log', hres, hidle, hfail.refuses, fun _ => hfail⟩
      · refine Or.inr ⟨log', hres, hl.committed.agree, hl.committed.buffer, ?_, ?_,
          hl.committed.absorbed.shrinks, fun _ => hl.committed.absorbed, fun id hid => ?_, hl.debug,
          (hl.logOK L H').apart, fun _ h => absurd h hacc⟩
        · rw [hl.cache]
          exact L.cache
        · exact hl.committed.reported L.records H' hl.evictions hl.sealedTopics
            (fun e he => hP e.1 (H.entries e he)) H.accepted
        · exact hl.committed.absorbed.gone (H.accepted_entries id hid)
  | some plan =>
    have hplan' := hplan plan rfl
    have H' : Batched E (log.inner.toRecords.resetTopic t) t built.batch rv := H.batched
    have hC : CacheOK E log.cache.cleared := by
      intro id st h
      simp [MembershipCache.cleared] at h
    have hpost : Post (Irokle.resetTopicAndAdmit E
      (E.reserve log.writes) log.inner t plan.expectedState built.batch
        (some plan.eviction)) _ _ := resetTopicAndAdmit_post L.records L.buffer H'
    dsimp only
    unfold Oplog.resetTopicAndAdmit
    dsimp only
    rw [H.batched.topicId]
    by_cases hq : V.quota.isSome = true
    · rw [if_pos hq]
      exact Or.inl ⟨_, _, rfl, ⟨rfl, rfl, rfl⟩, trivial, fun h => by cases h⟩
    · rw [if_neg hq]
      cases hres : Irokle.resetTopicAndAdmit E (E.reserve log.writes) log.inner t plan.expectedState built.batch
          (some plan.eviction) with
      | error e =>
        refine Or.inl ⟨e, _, rfl, ⟨rfl, rfl, rfl⟩, ?_, fun h => by cases h⟩
        rcases hpost.of_error hres with h | ⟨rfl, -⟩
        · exact h.refuses
        · trivial
      | ok res =>
        obtain ⟨-, ⟨inner₁, R₁, C⟩, hj, hsl⟩ := hpost.of_ok hres
        refine Or.inr ⟨_, rfl, C.agree, C.buffer, hC, ?_, R₁.shrinks.trans C.absorbed.shrinks,
          fun h => (by cases h),
          fun id hid => C.absorbed.gone (H.accepted_entries id hid), rfl, ?_, fun h => by cases h⟩
        · exact C.reported_reset L.records rfl H hplan' R₁ hj hsl hP hvalid
        · have hwaits := R₁.shrinks.waits L.waits
          have H₁ : Batched E inner₁.toRecords t built.batch rv := R₁.records ▸ H'
          have hrecords₁ : RecordsOK E inner₁.toRecords := R₁.records ▸ L.records.resetTopic t
          exact (L.apart.reset L.records L.buffer.ok R₁).absorb hrecords₁ R₁.buffer.ok hwaits
            (fun id op hop => (L.pending id op (R₁.shrinks.ops id op hop)).2.1) H₁ C.agree C.absorbed

theorem CommitLeaves.logOK {built : BuiltBatch} {plan : Option ResetPlan}
    (C : CommitLeaves E K P log built plan rv log') (L : LogOK E K P log)
    (H : Built E log.inner.toRecords plan.isSome ops built t rv) : LogOK E K P log' where
  records := (H.batched.grows.ok (L.records.base _ t)).of_agree C.agree
  buffer := C.buffer
  cache := C.cache
  pending id op hop := L.pending id op (C.shrinks.ops id op hop)
  waits := C.shrinks.waits L.waits
  apart := C.apart

/-- A write to the buffer that only adds the ops `ids`, and makes none ready. -/
structure BufferStep (p : PendingIndex) (ids : List OpId) (p' : PendingIndex) : Prop where
  keys : ∀ (k : OpId) rec', p'.pendingRecords[k]? = some rec' → (∃ rec, p.pendingRecords[k]? = some rec) ∨ k ∈ ids
  ready : ∀ k, k ∈ p'.pendingReady → k ∈ p.pendingReady

theorem BufferStep.refl (p : PendingIndex) (ids : List OpId) : BufferStep p ids p :=
  ⟨fun _ rec h => Or.inl ⟨rec, h⟩, fun _ h => h⟩

theorem BufferStep.trans {p p' p'' : PendingIndex} {ids ids' : List OpId} (h : BufferStep p ids p')
    (h' : BufferStep p' ids' p'') : BufferStep p (ids ++ ids') p'' where
  keys k rec'' hk := by
    rcases h'.keys k rec'' hk with ⟨rec', hk⟩ | hk
    · exact (h.keys k rec' hk).imp_right fun hk => mem_append_left _ hk
    · exact Or.inr (mem_append_right _ hk)
  ready k hk := h.ready k (h'.ready k hk)

/-- What a write to the buffer leaves of the log. -/
structure Buffers (E : Env) (K : Prop) (P : Op → Prop) (log : Oplog) (ids : List OpId) (log' : Oplog) : Prop where
  ok : LogOK E K P log'
  quiet : Quiet log.inner log'.inner
  step : BufferStep log.inner.toPendingIndex ids log'.inner.toPendingIndex

theorem Buffers.refl (L : LogOK E K P log) (ids : List OpId) : Buffers E K P log ids log :=
  ⟨L, .refl _, .refl _ _⟩

theorem Buffers.trans {log'' : Oplog} {ids ids' : List OpId} (h : Buffers E K P log ids log')
    (h' : Buffers E K P log' ids' log'') : Buffers E K P log (ids ++ ids') log'' :=
  ⟨h'.ok, h.quiet.trans h'.quiet, h.step.trans h'.step⟩

theorem Buffers.mono {ids ids' : List OpId} (hids : ids ⊆ ids') (h : Buffers E K P log ids log') :
    Buffers E K P log ids' log' :=
  ⟨h.ok, h.quiet, fun k rec hk => (h.step.keys k rec hk).imp_right (hids ·), h.step.ready⟩

theorem Idle.buffers (h : Idle log log') (L : LogOK E K P log) (ids : List OpId) : Buffers E K P log ids log' :=
  ⟨h.logOK L, h.quiet, h.inner ▸ .refl _ _⟩

/-- The invariant with another buffer. -/
theorem LogOK.withPending {p : PendingIndex} (L : LogOK E K P log) (B : BufferOK K log.inner.toRecords p)
    (hpending : ∀ (id : OpId) op, p.pendingOps[id]? = some op → P op ∧ E.Valid op ∧ op.body.deps ≠ ∅)
    (hwaits : WaitsForDeps p) (hapart : Apart E log.inner.toRecords p) : LogOK E K P (log.withPending p) :=
  ⟨L.records, B, L.cache, hpending, hwaits, hapart⟩

theorem LogOK.shrink {p : PendingIndex} (L : LogOK E K P log) (B : BufferOK K log.inner.toRecords p)
    (h : Thinned log.inner.toPendingIndex p) : LogOK E K P (log.withPending p) :=
  L.withPending B (fun id op hop => L.pending id op (h.ops id op hop)) (h.shrinks.waits L.waits) (L.apart.thin h)

theorem Quiet.withPending (log : Oplog) (p : PendingIndex) : Quiet log.inner (log.withPending p).inner :=
  ⟨rfl, rfl, rfl, rfl⟩

/-- **Buffering an op**: the log keeps its invariant, and on an error nothing changes. -/
theorem putPending_spec {missing : BTreeSet OpId} (V : View) (peer : PeerId) (genesis : Option OpId)
    (L : LogOK E K P log) (hP : P op) (hvalid : E.Valid op) (hne : missing ≠ ∅) (hdeps : op.body.deps ≠ ∅)
    (hsub : ∀ d ∈ missing, d ∈ op.body.deps)
    (hknown : ∀ d ∈ op.body.deps, d ∉ missing → Reckoned E log.inner.toRecords op d) :
    (∃ e log', log.putPending E V peer op missing genesis = (.error e, log') ∧ Buffers E K P log [op.id] log' ∧
        log'.inner = log.inner ∧ log'.debug = log.debug ∧
        PutFails (E.reserve log.writes) V.quota log.inner op (pendingMetaFor op missing) genesis e) ∨
      ∃ log', log.putPending E V peer op missing genesis = (.ok (), log') ∧ Buffers E K P log [op.id] log' ∧
        log'.debug = log.debug ∧ PutLeaves K log.inner op missing log'.inner.toPendingIndex := by
  have hpost : Post (putPendingBound E (E.reserve log.writes) V.quota log.inner peer op
    (pendingMetaFor op missing) genesis)
      _ _ := putPendingBound_post L.buffer
  unfold Oplog.putPending
  cases hput : putPendingBound E (E.reserve log.writes) V.quota log.inner peer op
    (pendingMetaFor op missing) genesis with
  | error e =>
    refine Or.inl ⟨e, _, rfl, ⟨?_, .withPending _ _, .refl _ _⟩, rfl, rfl, hpost.of_error hput⟩
    exact L.withPending L.buffer L.pending L.waits L.apart
  | ok p' =>
    have hleaves : PutLeaves K log.inner op missing p' := hpost.of_ok hput
    refine Or.inr ⟨_, rfl, ⟨?_, .withPending _ _, ?_⟩, rfl, hleaves⟩
    · rcases hleaves.2 with ⟨rfl, -⟩ | ⟨S, hres⟩
      · exact L.withPending hleaves.1 L.pending L.waits L.apart
      · refine L.withPending hleaves.1 (fun id x hx => ?_) (fun id x rec hx hrec d hd => ?_)
          (L.apart.store S hres hknown)
        · rw [S.ops] at hx
          split at hx
          · cases hx
            exact ⟨hP, hvalid, hdeps⟩
          · exact L.pending id x hx
        · rw [S.ops] at hx
          split at hx
          · rename_i hid
            cases hx
            obtain ⟨rec', hrec', hmiss, -⟩ := S.record
            rw [hid, hrec] at hrec'
            cases hrec'
            exact hsub d (hmiss ▸ hd)
          · rename_i hid
            exact L.waits id x rec hx ((S.records id hid).symm.trans hrec) d hd
    · change BufferStep log.inner.toPendingIndex [op.id] p'
      rcases hleaves.2 with ⟨rfl, -⟩ | ⟨S, -⟩
      · exact .refl _ _
      · refine ⟨fun k rec' hk => ?_, fun k hk => ?_⟩
        · by_cases hid : op.id = k
          · exact Or.inr (by simp [hid])
          · exact Or.inl ⟨rec', (S.records k hid).symm.trans hk⟩
        · obtain ⟨rec, hrec, h0⟩ := (hleaves.1.ok.ready k).1 hk
          by_cases hid : op.id = k
          · obtain ⟨rec', hrec', hmiss, -⟩ := S.record
            rw [hid, hrec] at hrec'
            cases hrec'
            exact absurd (hmiss.symm.trans h0) hne
          · exact (L.buffer.ok.ready k).2 ⟨rec, (S.records k hid).symm.trans hrec, h0⟩

theorem PutFails.refuses {quota : Option StagingQuota} {m : OpMeta} {genesis : Option OpId} {e : Error}
    (h : PutFails (E.reserve n) quota inner op m genesis e) : e.Refuses True := by
  cases h with
  | limit h => exact Error.refuses_of_isLimit h
  | fault h => exact (Env.reserve_fromFault h).refuses
  | mismatch | stale | conflict | rejected | collision => trivial

theorem Buffers.logged {ids : List OpId} (h : Buffers E K P log ids log') (entries : List (OpId × Error)) :
    Buffers E K P log ids { log' with debug := entries } := ⟨⟨h.ok.1, h.ok.2, h.ok.3, h.ok.4, h.ok.5, h.ok.6⟩,
      h.quiet, h.step⟩

/-- An op of a batch that waits for what it misses. -/
def Waits (E : Env) (P : Op → Prop) (e : Op × BTreeSet OpId) : Prop :=
  P e.1 ∧ E.Valid e.1 ∧ e.2 ≠ ∅ ∧ ∀ d ∈ e.2, d ∈ e.1.body.deps

theorem Waits.deps {e : Op × BTreeSet OpId} (h : Waits E P e) : e.1.body.deps ≠ ∅ := by
  obtain ⟨d, hd⟩ := BTreeSet.exists_mem_of_ne_empty h.2.2.1
  exact BTreeSet.ne_empty_of_mem (h.2.2.2 d hd)

/-- A batch buffers its ops with all they miss, except that a reset counts the old branch as missing. -/
theorem Built.reckoned {built : BuiltBatch} {plan : Option ResetPlan} {r' : Records}
    {e : Op × BTreeSet OpId} {d : OpId}
    (H : Built E r plan.isSome ops built t rv) (R' : RecordsOK E r') (hagree : rv.Agree E r')
    (hplan : ∀ p, plan = some p → PlanOK r ops t p) (hvalid : ∀ op ∈ ops, E.Valid op) (he : e ∈ built.pending)
    (hd : d ∈ e.1.body.deps) (hno : d ∉ e.2) :
    Reckoned E r' e.1 d := by
  obtain ⟨hin, -, -, -, hmissing⟩ := H.pending e he
  cases plan with
  | none =>
    cases hx : rv.ops[d]? with
    | none => exact absurd ((hmissing rfl d hd).2 hx) hno
    | some x => exact R'.reckoned (hagree.ops ▸ hx) e.1
  | some p =>
    obtain ⟨w, hw, -, hstr, -⟩ := (hplan p rfl).winner
    obtain ⟨x, hx⟩ := H.genesis w hw hstr
    rw [← hagree.ops] at hx
    have hxw : x = w := R'.eq_of_valid hx (hvalid w hw)
    obtain ⟨-, -, st, hst, -⟩ := R'.branch_of_mem (R'.mem_admitted hx)
    refine Or.inl ⟨st, ?_⟩
    rw [H.topic e.1 hin, ← H.topic w hw, ← hxw]
    exact hst

/-- The op or one of its dependencies was rejected. -/
def Barred (p : PendingIndex) (op : Op) : Prop :=
  ∃ k, (k = op.id ∨ k ∈ op.body.deps) ∧ k ∈ (p.rejected[op.body.topicId]?.getD {}).ids

/-- Only a mark refuses an op as rejected. -/
theorem PutFails.rejectedOp {quota : Option StagingQuota} {m : OpMeta} {genesis : Option OpId} {k : OpId}
    (h : PutFails (E.reserve n) quota inner op m genesis (.rejectedOp k)) :
    (k = op.id ∨ k ∈ m.missingDeps) ∧ k ∈ (inner.rejected[op.body.topicId]?.getD {}).ids := by
  cases h with
  | limit h => cases h
  | rejected hid h => exact ⟨hid, h⟩
  | fault h =>
    unfold Env.reserve at h
    split at h
    · rename_i fault _
      cases fault <;> cases h
    · cases h

theorem PutLeaves.rejected_eq {missing : BTreeSet OpId} {p' : PendingIndex}
    (h : PutLeaves K inner op missing p') :
    p'.rejected = inner.rejected := by
  rcases h.2 with ⟨rfl, -⟩ | ⟨S, -⟩
  · rfl
  · exact S.rejected

/-- What was just buffered waits for something. -/
theorem PutLeaves.not_ready {missing : BTreeSet OpId} {p' : PendingIndex} (h : PutLeaves K inner op missing p')
    (hne : missing ≠ ∅) (hnew : inner.depResolvable op.id = false) : op.id ∉ p'.pendingReady := by
  intro hready
  obtain ⟨rec, hrec, hempty⟩ := (h.1.ok.ready op.id).1 hready
  rcases h.2 with ⟨rfl, hheld | ⟨rec', hrec', hmiss⟩⟩ | ⟨S, -⟩
  · rw [hnew] at hheld
    cases hheld
  · rw [hrec] at hrec'
    cases hrec'
    exact hne (hmiss.symm.trans hempty)
  · obtain ⟨rec', hrec', hmiss, -⟩ := S.record
    rw [hrec] at hrec'
    cases hrec'
    exact hne (hmiss.symm.trans hempty)

/-- The op is not ready, unless something it waits for was rejected. -/
def SetAside (p : PendingIndex) (op : Op) : Prop := op.id ∉ p.pendingReady ∨ Barred p op

/-- How buffering the ops of a batch ends: only the buffer changed, and none of them is ready. -/
structure BufferEnds (E : Env) (K : Prop) (P : Op → Prop) (committed : Admitted) (log : Oplog)
    (pending : List (Op × BTreeSet OpId)) (res : Result Unit) (log' : Oplog) : Prop where
  buffers : Buffers E K P log (pending.map (·.1.id)) log'
  debug : log.debug <+: log'.debug
  rejected : log'.inner.rejected = log.inner.rejected
  left : res = .ok () → ∀ e ∈ pending, log.inner.depResolvable e.1.id = false →
    SetAside log'.inner.toPendingIndex e.1
  failed : ∀ e', res = .error e' → pending ≠ [] ∧ ∃ e, e' = admissionFailure committed e ∧ e.Refuses True

/-- Buffering the ops of a batch changes only the buffer, also when it stops at an error. -/
theorem bufferPending_spec {pending : List (Op × BTreeSet OpId)} (V : View) (source : Option PeerId) (t : TopicId)
    (committed : Admitted) (L : LogOK E K P log) (hpending : ∀ e ∈ pending, Waits E P e)
    (hknown : ∀ e ∈ pending, ∀ d ∈ e.1.body.deps, d ∉ e.2 → Reckoned E log.inner.toRecords e.1 d) :
    ∃ res log', Oplog.bufferPending E V source t committed log pending = (res, log') ∧
      BufferEnds E K P committed log pending res log' := by
  induction pending generalizing log with
  | nil => exact ⟨_, log, rfl, .refl L _, prefix_rfl, rfl, by simp, fun _ h => by cases h⟩
  | cons e rest ih =>
    have he := hpending e (by simp)
    -- what the rest of the ops leaves, once the first one was put or kept out
    have step : ∀ {log₁ : Oplog}, Buffers E K P log [e.1.id] log₁ → log.debug <+: log₁.debug →
        log₁.inner.rejected = log.inner.rejected →
        (log.inner.depResolvable e.1.id = false → SetAside log₁.inner.toPendingIndex e.1) →
        ∃ res log', Oplog.bufferPending E V source t committed log₁ rest = (res, log') ∧
          BufferEnds E K P committed log (e :: rest) res log' := by
      intro log₁ B hpre hrej hfirst
      have hrecords : log₁.inner.toRecords = log.inner.toRecords := B.quiet.records
      obtain ⟨res, log', h, D⟩ := ih B.ok (fun e' he' => hpending e' (by simp [he']))
        fun e' he' => hrecords ▸ hknown e' (by simp [he'])
      refine ⟨res, log', h, B.trans D.buffers, hpre.trans D.debug, D.rejected.trans hrej,
        fun hres x hx hnew => ?_, fun e' he' => ⟨by simp, (D.failed e' he').2⟩⟩
      rcases mem_cons.1 hx with rfl | hx
      · rcases hfirst hnew with h | ⟨k, hk, hmark⟩
        · exact Or.inl fun hready => h (D.buffers.step.ready _ hready)
        · exact Or.inr ⟨k, hk, by rw [D.rejected]; exact hmark⟩
      · exact D.left hres x hx (by rw [hrecords]; exact hnew)
    unfold Oplog.bufferPending
    rcases putPending_spec V (source.getD e.1.body.author)
      (V.boundGenesis t) L he.1 he.2.1 he.2.2.1 he.deps he.2.2.2
      (hknown e (by simp)) with ⟨err, log₁, h₁, B₁, hinner, hdebug, hfail⟩ | ⟨log₁, h₁, B₁, hdebug, hleaves⟩
    · rw [h₁]
      by_cases hrej : ∃ k, err = .rejectedOp k
      · obtain ⟨k, rfl⟩ := hrej
        obtain ⟨hk, hmark⟩ := hfail.rejectedOp
        exact step (B₁.logged _) (hdebug ▸ prefix_append _ _) (by rw [hinner]) fun _ =>
          Or.inr ⟨k, hk.imp_right fun hk => he.2.2.2 k hk, by rw [hinner]; exact hmark⟩
      · refine ⟨.error (admissionFailure committed err), log₁, ?_, B₁.trans (.refl B₁.ok (rest.map (·.1.id))),
          hdebug ▸ prefix_rfl, by rw [hinner], fun h => (by cases h),
          fun e' h => ⟨by simp, err, (Except.error.inj h).symm, hfail.refuses⟩⟩
        cases err <;> first | rfl | exact absurd ⟨_, rfl⟩ hrej
    · rw [h₁]
      exact step B₁ (hdebug ▸ prefix_rfl) hleaves.rejected_eq fun hnew => Or.inl (hleaves.not_ready he.2.2.1 hnew)

/-- A batch of the ops `ids` was taken: it accepted `accepted` and committed the resets `evictions`. -/
structure Took (E : Env) (K : Prop) (P : Op → Prop) (log : Oplog) (ids : List OpId) (accepted : BTreeSet OpId)
    (evictions : List TopicEviction) (log' : Oplog) : Prop where
  ok : LogOK E K P log'
  reported : Reported E P log.inner accepted evictions log'.inner
  keys : ∀ (k : OpId) rec', log'.inner.pendingRecords[k]? = some rec' →
    (∃ rec, log.inner.pendingRecords[k]? = some rec) ∨ k ∈ ids
  gone : ∀ id ∈ accepted, log'.inner.pendingRecords[id]? = none
  accepted : ∀ id ∈ accepted, id ∈ ids

theorem Buffers.took {ids : List OpId} (h : Buffers E K P log ids log') : Took E K P log ids ∅ [] log' :=
  ⟨h.ok, h.quiet.reported, h.step.keys, by simp, by simp⟩

/-- What a call leaves, by its result: the report of a success or of a partial commit is exact, and any
other error means that only the buffer changed. A partial commit left an op of the batch out. -/
def Settles (E : Env) (K : Prop) (P : Op → Prop) (log : Oplog) (ids : List OpId)
    (result : Result (BTreeSet OpId × List TopicEviction)) (log' : Oplog) : Prop :=
  match result with
  | .ok res => Took E K P log ids res.1 res.2 log' ∧ (res.1 = ∅ → res.2 = [] → Buffers E K P log ids log')
  | .error (.admissionCommitted admitted _) => Took E K P log ids admitted.accepted admitted.evictions log' ∧
      (admitted.accepted = ∅ → admitted.evictions ≠ []) ∧ ∃ id ∈ ids, log'.inner.ops[id]? = none
  | .error _ => Buffers E K P log ids log'

theorem Settles.error {ids : List OpId} {e : Error} (he : e.Refuses True) (h : Buffers E K P log ids log') :
    Settles E K P log ids (.error e) log' := by
  cases e <;> first | exact h | exact he.elim

theorem admissionFailure_of_refuses {e : Error} (he : e.Refuses True) (admitted : Admitted) :
    admissionFailure admitted e = if admitted.accepted.isEmpty && admitted.evictions.isEmpty then e
      else .admissionCommitted admitted e := by
  cases e <;> first | rfl | exact he.elim

/-- An error after a commit carries the commit. -/
theorem Settles.failure {ids : List OpId} {committed : Admitted} {e : Error} (he : e.Refuses True)
    (h : Took E K P log ids committed.accepted committed.evictions log')
    (hquiet : committed.accepted = ∅ → committed.evictions = [] → Buffers E K P log ids log')
    (hleft : ∃ id ∈ ids, log'.inner.ops[id]? = none) :
    Settles E K P log ids (.error (admissionFailure committed e)) log' := by
  rw [admissionFailure_of_refuses he]
  split
  · rename_i hempty
    rw [Bool.and_eq_true] at hempty
    exact .error he (hquiet (ExtTreeSet.isEmpty_iff.1 hempty.1) (List.isEmpty_iff.1 hempty.2))
  · rename_i hne
    rw [Bool.and_eq_true, not_and] at hne
    exact ⟨h, fun hacc hev => hne (ExtTreeSet.isEmpty_iff.2 hacc) (List.isEmpty_iff.2 hev), hleft⟩

/-! ## The projections kept across calls -/

theorem makeRoom_sub {need : ℕ} {order : List OpId} {states : Projections} {k : OpId} {st : TopicState}
    (h : (Oplog.makeRoom need order states).2[k]? = some st) : states[k]? = some st := by
  induction order generalizing states with
  | nil => exact h
  | cons oldest order ih =>
    unfold Oplog.makeRoom at h
    split at h
    · exact (BTreeMap.of_getElem?_erase (ih h)).2
    · exact h

theorem CacheOK.cacheProjection {cache : MembershipCache} {ps : Projections} (hC : CacheOK E cache)
    (hps : ProjectionsOK E ps) (id : OpId) : CacheOK E (Oplog.cacheProjection ps cache id) := by
  unfold Oplog.cacheProjection
  split
  · rename_i st hst
    split
    · intro k st' h
      rcases BTreeMap.of_getElem?_insert h with ⟨rfl, rfl⟩ | ⟨-, h⟩
      · exact hps id _ hst
      · exact hC k st' (makeRoom_sub h)
    · exact hC
  · exact hC

theorem Oplog.inner_cacheProjections (log : Oplog) (built : BuiltBatch) :
    (log.cacheProjections built).inner = log.inner := by
  unfold Oplog.cacheProjections
  split <;> rfl

theorem Oplog.debug_cacheProjections (log : Oplog) (built : BuiltBatch) :
    (log.cacheProjections built).debug = log.debug := by
  unfold Oplog.cacheProjections
  split <;> rfl

theorem LogOK.cacheProjections {built : BuiltBatch} (L : LogOK E K P log)
    (hps : ProjectionsOK E built.projections) :
    LogOK E K P (log.cacheProjections built) := by
  unfold Oplog.cacheProjections
  split
  · refine ⟨L.records, L.buffer, ?_, L.pending, L.waits, L.apart⟩
    have key : ∀ (l : List OpId) (cache : MembershipCache), CacheOK E cache →
        CacheOK E (l.foldl (Oplog.cacheProjection built.projections) cache) := by
      intro l
      induction l with
      | nil => exact fun _ h => h
      | cons id l ih => exact fun cache h => ih _ (h.cacheProjection hps id)
    exact key _ _ L.cache
  · exact L

/-! ## A batch and its attempts -/

theorem Reported.of_quiet (h : Quiet a b) (h' : Reported E P b acc evictions c) :
    Reported E P a acc evictions c where
  stored := by rw [← h.records]; exact h'.stored
  fresh := by rw [← h.records]; exact h'.fresh
  kept := by rw [← h.records]; exact h'.kept
  lost := by rw [← h.records]; exact h'.lost
  resets e he := ⟨by rw [← h.records]; exact (h'.resets e he).before, (h'.resets e he).after⟩
  winner := h'.winner
  single := h'.single
  journal := by rw [← h.evictions]; exact h'.journal
  genesis := by rw [← h.records]; exact h'.genesis
  peerAcks := by rw [← h.evidence]; exact h'.peerAcks
  keyed := by rw [← h.evidence]; exact h'.keyed
  sealedTopics := h'.sealedTopics.trans h.sealedTopics

/-- A call after some writes to the buffer. -/
theorem Settles.after {log₁ : Oplog} {ids ids' : List OpId} {res : Result (BTreeSet OpId × List TopicEviction)}
    (h : Buffers E K P log ids log₁) (hids : ids' ⊆ ids) (h' : Settles E K P log₁ ids' res log') :
    Settles E K P log ids res log' := by
  have took : ∀ {acc evictions}, Took E K P log₁ ids' acc evictions log' →
      Took E K P log ids acc evictions log' := by
    intro acc evictions T
    refine ⟨T.ok, T.reported.of_quiet h.quiet, fun k rec hk => ?_, T.gone, fun id hid => hids (T.accepted id hid)⟩
    rcases T.keys k rec hk with ⟨rec₁, hk⟩ | hk
    · exact h.step.keys k rec₁ hk
    · exact Or.inr (hids hk)
  have buffers : Buffers E K P log₁ ids' log' → Buffers E K P log ids log' := fun B =>
    (h.trans (B.mono hids)).mono (by simp)
  cases res with
  | ok res => exact ⟨took h'.1, fun h1 h2 => buffers (h'.2 h1 h2)⟩
  | error e =>
    cases e with
    | admissionCommitted admitted src =>
      obtain ⟨T, hne, id, hid, hnone⟩ := h'
      exact ⟨took T, hne, id, hids hid, hnone⟩
    | _ => exact buffers h'

/-- How a batch ends: what it committed is reported, and an op it neither stored nor refused is not ready. -/
structure BatchEnds (E : Env) (K : Prop) (P : Op → Prop) (log : Oplog) (ops : List Op)
    (res : Result (BTreeSet OpId × List TopicEviction)) (log' : Oplog) : Prop where
  settles : Settles E K P log (ops.map Op.id) res log'
  debug : log.debug <+: log'.debug
  left : ops.any isStructuralGenesis = false → ∀ evictions, res = .ok (∅, evictions) →
    ∀ op ∈ ops, log.inner.ops[op.id]? = none → SetAside log'.inner.toPendingIndex op

theorem BatchEnds.refused {e : Error} (L : LogOK E K P log) (he : e.Refuses True) (h : Idle log log') :
    BatchEnds E K P log ops (.error e) log' :=
  ⟨.error he (h.buffers L _), h.debug ▸ prefix_rfl, fun _ _ h => by cases h⟩

theorem BatchEnds.after {log₁ : Oplog} {ops' : List Op} {res : Result (BTreeSet OpId × List TopicEviction)}
    (B : Buffers E K P log (ops.map Op.id) log₁) (hpre : log.debug <+: log₁.debug) (hsub : ∀ op ∈ ops', op ∈ ops)
    (hsame : ops.any isStructuralGenesis = false → ops' = ops) (h : BatchEnds E K P log₁ ops' res log') :
    BatchEnds E K P log ops res log' where
  settles := h.settles.after B (map_subset _ hsub)
  debug := hpre.trans h.debug
  left hany evictions hres op hop hnew := by
    rw [hsame hany] at h
    exact h.left hany evictions hres op hop (by rw [B.quiet.records]; exact hnew)

section Commit

variable {built : BuiltBatch} {plan : Option ResetPlan} {log₁ log₂ : Oplog}

theorem Built.waits (H : Built E r plan.isSome ops built t rv) (hP : ∀ op ∈ ops, P op) :
    ∀ e ∈ built.pending, Waits E P e := by
  intro e he
  obtain ⟨hin, hv, hne, hsub, -⟩ := H.pending e he
  exact ⟨hP e.1 hin, hv, hne, hsub⟩

/-- A batch was committed, and its other ops were buffered. -/
theorem CommitLeaves.took (C : CommitLeaves E K P log built plan rv log₁)
    (H : Built E log.inner.toRecords plan.isSome ops built t rv)
    (B : Buffers E K P log₁ (built.pending.map (·.1.id)) log₂) :
    Took E K P log (ops.map Op.id) built.accepted (plan.map (·.eviction)).toList log₂ ∧
      (built.accepted = ∅ → (plan.map (·.eviction)).toList = [] → Buffers E K P log (ops.map Op.id) log₂) := by
  have hids : built.pending.map (·.1.id) ⊆ ops.map Op.id := by
    intro k hk
    obtain ⟨e, he, rfl⟩ := mem_map.1 hk
    exact mem_map_of_mem (H.pending e he).1
  refine ⟨⟨B.ok, C.reported.quiet B.quiet, fun k rec' hk => ?_, fun id hid => ?_, fun id hid => ?_⟩,
    fun hacc hev => ?_⟩
  · rcases B.step.keys k rec' hk with ⟨rec₁, hk⟩ | hk
    · obtain ⟨rec, hrec, -⟩ := C.shrinks.missing k rec₁ hk
      exact Or.inl ⟨rec, hrec⟩
    · exact Or.inr (hids hk)
  · -- what was just buffered is not stored, so it is none of the accepted ops
    refine Option.eq_none_iff_forall_ne_some.2 fun rec' hrec => ?_
    rcases B.step.keys id rec' hrec with ⟨rec₁, hk⟩ | hk
    · rw [C.gone id hid] at hk
      cases hk
    · obtain ⟨e, he, rfl⟩ := mem_map.1 hk
      obtain ⟨-, x, hx⟩ := C.reported.fresh e.1.id hid
      rw [C.agree.ops, H.waiting e he] at hx
      cases hx
  · obtain ⟨e, he, rfl⟩ := (H.accepted id).1 hid
    exact mem_map_of_mem (H.entries e he)
  · have hnone : plan = none := by
      cases plan with
      | none => rfl
      | some p => simp at hev
    rw [C.idle hnone hacc] at B
    exact B.mono hids

/-- An op of a batch that stored nothing was buffered. -/
theorem CommitLeaves.left {committed : Admitted} (C : CommitLeaves E K P log built none rv log₁)
    (L₁ : LogOK E K P log₁) (H : Built E log.inner.toRecords false ops built t rv)
    (D : BufferEnds E K P committed log₁ built.pending (.ok ()) log₂) (hacc : built.accepted = ∅)
    (hvalid : E.Valid op) (hop : op ∈ ops) (hnew : log.inner.ops[op.id]? = none) :
    SetAside log₂.inner.toPendingIndex op := by
  rcases H.handled rfl op hop with ⟨x, hx⟩ | ⟨e, he, hid⟩
  · exfalso
    rcases H.batched.grows.getElem?_ops.1 hx with hx | ⟨e, he, rfl, -⟩
    · cases (show log.inner.ops[op.id]? = some x from hx).symm.trans hnew
    · have := (H.accepted e.1.id).2 ⟨e, he, rfl⟩
      simp [hacc] at this
  · obtain rfl : e.1 = op := (H.pending e he).2.1.eq_of_id hvalid hid
    refine D.left rfl e he (Bool.eq_false_iff.2 fun hres => ?_)
    obtain ⟨x, hx⟩ := L₁.records.depResolvable_iff.1 hres
    rw [C.agree.ops, H.waiting e he] at hx
    cases hx

end Commit

/-- **One batch reports exactly what it committed.** -/
theorem admitOpsBatch_spec {plan : Option ResetPlan} (L : LogOK E K P log) (hP : ∀ op ∈ ops, P op)
    (hvalid : ∀ op ∈ ops, E.Valid op) (heff : EffectsOK effects)
    (hplan : ∀ p, plan = some p → ∃ t, PlanOK log.inner.toRecords ops t p) :
    ∃ res log', log.admitOpsBatch E V source ops verified plan effects = (res, log') ∧
      BatchEnds E K P log ops (res.map fun acc => (acc, (plan.map (·.eviction)).toList)) log' := by
  unfold Oplog.admitOpsBatch
  dsimp only
  set log₀ : Oplog := if plan.isSome = true then { log with cache := log.cache.cleared } else log with hlog₀
  have hinner : log₀.inner = log.inner := by rw [hlog₀]; split <;> rfl
  have hdebug : log₀.debug = log.debug := by rw [hlog₀]; split <;> rfl
  have L₀ : LogOK E K P log₀ := by
    rw [hlog₀]
    split
    · refine ⟨L.records, L.buffer, ?_, L.pending, L.waits, L.apart⟩
      intro id st h
      simp [MembershipCache.cleared] at h
    · exact L
  have ends : ∀ {res log'}, BatchEnds E K P log₀ ops res log' → BatchEnds E K P log ops res log' :=
    .after ⟨L₀, hinner ▸ .refl _, hinner ▸ .refl _ _⟩ (hdebug ▸ prefix_rfl) (fun _ h => h) fun _ => rfl
  have hpost : Post (buildBatch E V log₀.writes log₀.inner.toRecords log₀.cache source ops verified
    plan.isSome effects)
      _ _ := buildBatch_post L₀.records L₀.cache hvalid heff
  cases hbuild : buildBatch E V log₀.writes log₀.inner.toRecords log₀.cache source ops verified plan.isSome
    effects with
  | error e => exact ⟨_, _, rfl, ends (.refused L₀ (hpost.of_error hbuild) (.refl _))⟩
  | ok res =>
    cases res with
    | none =>
      have hnil : ops = [] := hpost.of_ok hbuild
      have hnone : plan = none := by
        cases plan with
        | none => rfl
        | some p =>
          obtain ⟨t, hp⟩ := hplan p rfl
          obtain ⟨w, hw, -⟩ := hp.winner
          simp [hnil] at hw
      subst hnone
      have B := Buffers.refl L₀ (ops.map Op.id)
      exact ⟨_, _, rfl, ends ⟨⟨B.took, fun _ _ => B⟩, prefix_rfl, fun _ _ _ op hop => by simp [hnil] at hop⟩⟩
    | some built =>
      obtain ⟨⟨t, rv, H⟩, -⟩ := hpost.of_ok hbuild
      have hplan₀ : ∀ p, plan = some p → PlanOK log₀.inner.toRecords ops t p := by
        intro p hp
        obtain ⟨t', hp'⟩ := hplan p hp
        obtain ⟨w, hw, ht, -⟩ := hp'.winner
        rw [← H.topic w hw, ht, hinner]
        exact hp'
      dsimp only
      rcases commitBuilt_spec (V := V) L₀ H hplan₀ hP hvalid with
        ⟨e, log₁, hcommit, hidle, href, -⟩ | ⟨log₁, hcommit, C⟩
      · rw [hcommit]
        exact ⟨_, _, rfl, ends (.refused L₀ href hidle)⟩
      · rw [hcommit]
        dsimp only
        have L₁ : LogOK E K P log₁ := C.logOK L₀ H
        obtain ⟨res, log₂, h₂, D⟩ := bufferPending_spec V source built.batch.topicId
          ⟨built.accepted, (plan.map (·.eviction)).toList, false⟩ L₁ (H.waits hP)
          fun e he d hd hno => H.reckoned L₁.records C.agree hplan₀ hvalid he hd hno
        have hpre : log₀.debug <+: log₂.debug := C.debug ▸ D.debug
        rw [h₂]
        cases res with
        | error e' =>
          obtain ⟨hne, e, rfl, href⟩ := D.failed e' rfl
          obtain ⟨hT, hB⟩ := C.took H D.buffers
          refine ⟨_, _, rfl, ends ⟨.failure href hT hB ?_, hpre, fun _ _ h => by cases h⟩⟩
          obtain ⟨e₀, he₀⟩ := exists_mem_of_ne_nil _ hne
          refine ⟨e₀.1.id, mem_map_of_mem (H.pending e₀ he₀).1, ?_⟩
          rw [D.buffers.quiet.records, C.agree.ops]
          exact H.waiting e₀ he₀
        | ok u =>
          have hsame := Oplog.inner_cacheProjections log₂ built
          have B : Buffers E K P log₁ (built.pending.map (·.1.id)) (log₂.cacheProjections built) :=
            ⟨D.buffers.ok.cacheProjections H.projections, hsame ▸ D.buffers.quiet, hsame ▸ D.buffers.step⟩
          refine ⟨_, _, rfl, ends ⟨C.took H B, by rw [Oplog.debug_cacheProjections]; exact hpre,
            fun hany evictions hres op hop hnew => ?_⟩⟩
          have hnone : plan = none := by
            cases plan with
            | none => rfl
            | some p =>
              obtain ⟨w, hw, -, hs, -⟩ := (hplan₀ p rfl).winner
              exact absurd hs (by simpa using any_eq_false.1 hany w hw)
          subst hnone
          rw [hsame]
          exact C.left L₁ H D (Prod.mk.inj (Except.ok.inj hres)).1 (hvalid op hop) hop hnew

theorem BufferStep.of_records {p p' : PendingIndex} {ids : List OpId} (ok : PendingOK p) (ok' : PendingOK p')
    (h : ∀ (k : OpId) rec, p'.pendingRecords[k]? = some rec → p.pendingRecords[k]? = some rec) :
    BufferStep p ids p' where
  keys k rec hk := Or.inl ⟨rec, h k rec hk⟩
  ready k hk := by
    obtain ⟨rec, hrec, h0⟩ := (ok'.ready k).1 hk
    exact (ok.ready k).2 ⟨rec, h k rec hrec, h0⟩

/-- Purging the waiters of an op only takes ops out of the buffer. -/
theorem purgePendingWaiters_spec (L : LogOK E K P log) (dep : OpId) :
    ∃ log', log.purgePendingWaiters dep = (.ok (), log') ∧ Buffers E K P log [] log' ∧
      log'.debug = log.debug := by
  obtain ⟨k, p', h, B, R⟩ := L.buffer.purge dep
  refine ⟨log.withPending p', ?_, ⟨L.shrink B R.thinned, .withPending _ _, ?_⟩, rfl⟩
  · unfold Oplog.purgePendingWaiters
    rw [h]
    rfl
  · exact .of_records L.buffer.ok B.ok fun k rec hk => (R.getElem?_records.1 hk).2

/-- **A genesis collision** leaves the batch as it is, plans a reset to a smaller genesis of it, or drops
the refused genesis with its descendants. -/
theorem resolveGenesisCollision_post :
    Post (resolveGenesisCollision E r ops verified)
      (fun res => (∀ op ∈ res.1, op ∈ ops) ∧ ∀ p, res.2.1 = some p → ∃ t, PlanOK r res.1 t p)
        (Error.Refuses True) := by
  unfold resolveGenesisCollision
  split
  · exact Post.ok ⟨fun _ h => h, by simp⟩
  · rename_i w hfind
    split
    · exact Post.ok ⟨fun _ h => h, by simp⟩
    · rename_i state hstate
      split
      · exact Post.ok ⟨fun _ h => h, by simp⟩
      · have hrest : Post (do
            if w.id < state.genesis ∧ samePeers r state.genesis w = true then
              return (ops, some ⟨state, extractEviction r w.body.topicId state w.id⟩, none)
            return (withoutDescendants ops w.id, none, some w.id) : Result
              (List Op × Option ResetPlan × Option OpId))
            (fun res => (∀ op ∈ res.1, op ∈ ops) ∧ ∀ p, res.2.1 = some p → ∃ t, PlanOK r res.1 t p)
            (Error.Refuses True) := by
          split
          · rename_i hwin
            refine Post.pure ⟨fun _ h => h, fun p hp => ?_⟩
            cases hp
            exact ⟨w.body.topicId, hstate, w, mem_of_find?_eq_some hfind, rfl, by simpa using find?_some hfind,
              hwin.1, hwin.2, rfl⟩
          · exact Post.pure ⟨fun op hop => (mem_filter.1 hop).1, by simp⟩
        dsimp only
        split
        · exact (validate_post.mono (fun _ h => h) fun e h => h.mono False.elim).bind fun _ _ => hrest
        · exact hrest

theorem resolveAttempt_spec (L : LogOK E K P log) :
    (∃ e, log.resolveAttempt E ops verified = (.error e, log) ∧ e.Refuses True) ∨
      ∃ ops' plan log', log.resolveAttempt E ops verified = (.ok (ops', plan), log') ∧ Buffers E K P log [] log' ∧
        log'.debug = log.debug ∧ (∀ op ∈ ops', op ∈ ops) ∧ (ops.any isStructuralGenesis = false → ops' = ops) ∧
        ∀ p, plan = some p → ∃ t, PlanOK log'.inner.toRecords ops' t p := by
  unfold Oplog.resolveAttempt
  split
  · rename_i hany
    have hsame : ops.any isStructuralGenesis = false → ∀ {ops' : List Op}, ops' = ops :=
      fun h => by simp [hany] at h
    have hpost : Post (resolveGenesisCollision E log.inner.toRecords ops verified) _ _ :=
      resolveGenesisCollision_post
    cases hres : resolveGenesisCollision E log.inner.toRecords ops verified with
    | error e => exact Or.inl ⟨e, rfl, hpost.of_error hres⟩
    | ok res =>
      obtain ⟨ops', plan, refused⟩ := res
      obtain ⟨hsub, hplan⟩ := hpost.of_ok hres
      cases refused with
      | none => exact Or.inr ⟨ops', plan, log, rfl, .refl L _, rfl, hsub, fun h => hsame h, hplan⟩
      | some losing =>
        obtain ⟨log', h, B, hdebug⟩ := purgePendingWaiters_spec L losing
        dsimp only
        rw [h]
        refine Or.inr ⟨ops', plan, log', rfl, B, hdebug, hsub, fun h => hsame h, fun p hp => ?_⟩
        rw [B.quiet.records]
        exact hplan p hp
  · exact Or.inr ⟨ops, none, log, rfl, .refl L _, rfl, fun _ h => h, fun _ => rfl, by simp⟩

/-- The invariant does not read how many writes were attempted. -/
theorem Idle.ticked (log : Oplog) : Idle log { log with writes := log.writes + 1 } := ⟨rfl, rfl, rfl⟩

/-- The rule of an attempt: it ends with what its batch returned, unless that lost a race and is repeated. -/
theorem admitAttempts_step {attempts : ℕ} {Q : Result (BTreeSet OpId × Option TopicEviction) → Oplog → Prop}
    (hturn : ∀ e, E.FromFault e → Q (.error e) { log with writes := log.writes + 1 })
    (hbehind : Oplog.behindBranch V log.inner.toRecords ops = true →
      Q (.error .staleIncarnation) { log with writes := log.writes + 1 })
    (hresolve : ∀ e log₁, Oplog.resolveAttempt E { log with writes := log.writes + 1 } ops verified =
      (.error e, log₁) → Q (.error e) log₁)
    (hbatch : ∀ ops' plan log₁ res log₂,
      Oplog.resolveAttempt E { log with writes := log.writes + 1 } ops verified = (.ok (ops', plan), log₁) →
      log₁.admitOpsBatch E V source ops' verified plan effects = (res, log₂) →
      (res ≠ .error .admissionConflict → Q (res.map fun acc => (acc, plan.map (·.eviction))) log₂) ∧
        ∀ e, res = .error e → isAdmissionRace e = true →
          ∃ res' log', Oplog.admitAttempts E V source ops verified effects attempts log₂ = (res', log') ∧
            Q res' log') :
    ∃ res log', Oplog.admitAttempts E V source ops verified effects (attempts + 1) log = (res, log') ∧
      Q res log' := by
  unfold Oplog.admitAttempts
  dsimp only
  split
  · rename_i e h
    split at h
    · cases h
    · exact ⟨_, _, rfl, hturn e (Env.reserve_fromFault h)⟩
  · split
    · exact ⟨_, _, rfl, hbehind ‹_›⟩
    · split
      · exact ⟨_, _, rfl, hresolve _ _ ‹_›⟩
      · rename_i ops' plan log₁ hres
        split
        · rename_i h
          exact ⟨_, _, rfl, (hbatch _ _ _ _ _ hres h).1 (by simp)⟩
        · rename_i h
          exact (hbatch _ _ _ _ _ hres h).2 _ rfl rfl
        · rename_i e log₂ hne h
          split
          · rename_i hrace
            exact (hbatch _ _ _ _ _ hres h).2 e rfl (Bool.and_eq_true_iff.1 hrace).1
          · exact ⟨_, _, rfl, (hbatch _ _ _ _ _ hres h).1 fun heq => hne (Except.error.inj heq)⟩

/-- The attempts of a batch report exactly what the last one committed. -/
theorem admitAttempts_spec {attempts : ℕ} (L : LogOK E K P log) (hP : ∀ op ∈ ops, P op)
    (hvalid : ∀ op ∈ ops, E.Valid op) (heff : EffectsOK effects) :
    ∃ res log', Oplog.admitAttempts E V source ops verified effects attempts log = (res, log') ∧
      BatchEnds E K P log ops (res.map fun res => (res.1, res.2.toList)) log' := by
  induction attempts generalizing log with
  | zero => exact ⟨_, _, rfl, .refused L trivial (.refl _)⟩
  | succ attempts ih =>
    have hidle := Idle.ticked log
    have L₀ := hidle.logOK L
    refine admitAttempts_step (fun e h => .refused L h.refuses hidle) (fun _ => .refused L trivial hidle)
      (fun e log₁ h => ?_) fun ops' plan log₁ res log₂ h hadmitted => ?_
    · rcases resolveAttempt_spec L₀ with ⟨e', h', href⟩ | ⟨_, _, _, h', -⟩
      · cases h'.symm.trans h
        exact .refused L href hidle
      · cases h'.symm.trans h
    · rcases resolveAttempt_spec L₀ with ⟨e', h', -⟩ | ⟨_, _, _, h', B₁, hdebug, hsub, hsame, hplan⟩
      · cases h'.symm.trans h
      · cases h'.symm.trans h
        have B : Buffers E K P log (ops.map Op.id) log₁ :=
          ((hidle.buffers L (ops.map Op.id)).trans B₁).mono (by simp)
        obtain ⟨res', log₂', hadmitted', hends⟩ :=
          admitOpsBatch_spec (V := V) B₁.ok (fun op hop => hP op (hsub op hop))
          (fun op hop => hvalid op (hsub op hop)) heff hplan
        cases hadmitted'.symm.trans hadmitted
        have hlast := BatchEnds.after B (hdebug ▸ prefix_rfl) hsub hsame hends
        refine ⟨fun _ => ?_, fun e he hrace => ?_⟩
        · cases res with
          | ok accepted => simpa [Except.map, Option.toList_map] using hlast
          | error e => exact hlast
        · subst he
          have B₂ : Buffers E K P log (ops.map Op.id) log₂ := by
            have hs := hlast.settles
            cases e <;> first | exact hs | cases hrace
          obtain ⟨res, log', hres, hs⟩ := ih B₂.ok
          exact ⟨res, log', hres, hs.after B₂ hlast.debug (fun _ h => h) fun _ => rfl⟩

/-- The checks of a batch before its first attempt. -/
theorem checkOps_post (hver : ∀ op ∈ ops, op.id ∈ verified → E.Valid op) :
    Post (ops.forM fun op => if op.id ∈ verified then .ok () else do
        E.validateFrame op
        E.validate op : Result Unit) (fun _ => ∀ op ∈ ops, E.Valid op) (Error.Refuses True) := by
  refine Post.forM fun op hop => ?_
  split
  · exact Post.ok (hver op hop ‹_›)
  · exact (validateFrame_post.mono (fun _ h => h) fun e h => by rw [h]; trivial).bind fun _ _ =>
      validate_post.mono (fun _ h => h) fun e h => h.mono False.elim

/-- **A batch with its retries reports exactly what it committed.** -/
theorem admitWithRetry_spec (V : View) (source : Option PeerId) (L : LogOK E K P log) (hP : ∀ op ∈ ops, P op)
    (hver : ∀ op ∈ ops, op.id ∈ verified → E.Valid op) (heff : EffectsOK effects) :
    ∃ res log', log.admitWithRetry E V source ops verified effects = (res, log') ∧
      BatchEnds E K P log ops (res.map fun res => (res.1, res.2.toList)) log' := by
  unfold Oplog.admitWithRetry
  split
  · exact ⟨_, _, rfl, .refused L trivial (.refl _)⟩
  · dsimp only
    split
    · rename_i e he
      exact ⟨_, _, rfl, .refused L ((checkOps_post hver).of_error he) (.refl _)⟩
    · rename_i hok
      exact admitAttempts_spec L hP ((checkOps_post hver).of_ok hok) heff

end Irokle
