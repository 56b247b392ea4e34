import Irokle.Proof.Commit

/-!
# The buffer beside the records

A buffered op that is ready is not stored. For one store this is plain, since admitting an op takes it out of
the buffer. Copying a topic into a store can store an op that is buffered there; such an op still waits,
because a topic that is copied was unknown before, so nothing of it was ever admitted.

* `Reckoned` — why an op no longer waits for one of its dependencies;
* `Apart` — ready ops are not stored, and what no longer waits is known;
* `Apart.absorb`, `Apart.reset`, `Apart.store`, `Apart.thin` — every write to a store keeps it.
-/

namespace Irokle

open Std Outcome Causal

/-- Every buffered op waits for dependencies of its own. -/
def WaitsForDeps (p : PendingIndex) : Prop :=
  ∀ (id : OpId) op rec, p.pendingOps[id]? = some op → p.pendingRecords[id]? = some rec →
    ∀ d ∈ rec.missing, d ∈ op.body.deps

/-- Why `op` does not wait for its dependency `d`: its topic is held, or `d` is of another topic. -/
def Reckoned (E : Env) (r : Records) (op : Op) (d : OpId) : Prop :=
  (∃ st, r.topicState op.body.topicId = some st) ∨ ∃ y, E.Valid y ∧ y.id = d ∧ y.body.topicId ≠ op.body.topicId

/-- The buffer and the records are apart: a ready op is not stored, and an op waits for each of its
dependencies unless that one is known. -/
structure Apart (E : Env) (r : Records) (p : PendingIndex) : Prop where
  ready : ∀ (id : OpId) rec, p.pendingRecords[id]? = some rec → rec.missing = ∅ → r.depResolvable id = false
  known : ∀ (id : OpId) op rec, p.pendingOps[id]? = some op → p.pendingRecords[id]? = some rec →
    ∀ d ∈ op.body.deps, d ∉ rec.missing → Reckoned E r op d

variable {E : Env} {K : Prop} {r r' rv : Records} {t : TopicId} {op x : Op} {d : OpId} {p p' : PendingIndex}
  {inner inner' : MemoryInner} {b : AdmittedBatch}

theorem apart_empty : Apart E r {} := ⟨by simp, by simp⟩

/-- A stored dependency is known. -/
theorem RecordsOK.reckoned (R : RecordsOK E r) (h : r.ops[d]? = some x) (op : Op) : Reckoned E r op d := by
  by_cases ht : x.body.topicId = op.body.topicId
  · obtain ⟨-, -, st, hst, -⟩ := R.branch_of_mem (R.mem_admitted h)
    exact Or.inl ⟨st, ht ▸ hst⟩
  · exact Or.inr ⟨x, R.valid h, R.opId d x h, ht⟩

theorem Reckoned.mono (h : Reckoned E r op d) (hstate : ∀ st, r.topicState op.body.topicId = some st →
    ∃ st', r'.topicState op.body.topicId = some st') : Reckoned E r' op d :=
  h.imp_left fun ⟨st, hst⟩ => hstate st hst

theorem Apart.thin (h : Apart E r p) (T : Thinned p p') : Apart E r p' where
  ready id rec hrec := h.ready id rec (T.records id rec hrec)
  known id op rec hop hrec := h.known id op rec (T.ops id op hop) (T.records id rec hrec)

/-- An op is buffered with the dependencies that are not known. -/
theorem Apart.store {missing : BTreeSet OpId} (h : Apart E r p) (S : Stored p op missing p')
    (hres : r.depResolvable op.id = false) (hknown : ∀ d ∈ op.body.deps, d ∉ missing → Reckoned E r op d) :
    Apart E r p' := by
  obtain ⟨rec₀, hrec₀, hmiss, -⟩ := S.record
  refine ⟨fun id rec hrec hempty => ?_, fun id x rec hx hrec d hd hno => ?_⟩ <;> by_cases hid : op.id = id
  · exact hid ▸ hres
  · exact h.ready id rec ((S.records id hid).symm.trans hrec) hempty
  · subst hid
    rw [S.ops, if_pos rfl] at hx
    rw [hrec₀] at hrec
    cases hx
    cases hrec
    exact hknown d hd (hmiss ▸ hno)
  · rw [S.ops, if_neg hid] at hx
    exact h.known id x rec hx ((S.records id hid).symm.trans hrec) d hd hno

/-! ## Commits and resets -/

theorem Absorbed.gone {ids : List OpId} {id : OpId} (h : Absorbed p ids p') (hid : id ∈ ids) :
    p'.pendingRecords[id]? = none := by
  rw [h.records, if_pos hid]

/-- What is left in the buffer was there before and misses nothing that was admitted. -/
theorem Absorbed.record_cases {ids : List OpId} {k : OpId} {rec : PendingRecord} (h : Absorbed p ids p')
    (hrec : p'.pendingRecords[k]? = some rec) :
    k ∉ ids ∧ ∃ rec₀, p.pendingRecords[k]? = some rec₀ ∧ ∀ d, d ∈ rec.missing ↔ d ∈ rec₀.missing ∧ d ∉ ids := by
  rw [h.records] at hrec
  split at hrec
  · cases hrec
  · rename_i hk
    obtain ⟨rec₀, hrec₀, rfl⟩ := Option.map_eq_some_iff.1 hrec
    exact ⟨hk, rec₀, hrec₀, fun d => by simp⟩

/-- A batch takes no state away. -/
theorem Batched.state_kept (H : Batched E r t b rv) {t' : TopicId} {st : TopicState}
    (h : r.topicState t' = some st) :
    ∃ st', rv.topicState t' = some st' := by
  by_cases ht : t = t'
  · subst ht
    rw [H.state, h]
    cases b.topicState with
    | none => exact ⟨_, rfl⟩
    | some st' => exact ⟨_, rfl⟩
  · exact ⟨st, by rw [(H.grows.other ht).2.2.1, h]⟩

/-- **A commit keeps the buffer apart.** A stored op that is buffered waits for a stored op, and no batch
stores that one again. -/
theorem Apart.absorb (h : Apart E r p) (R : RecordsOK E r) (ok : PendingOK p) (hw : WaitsForDeps p)
    (hvalid : ∀ (id : OpId) op, p.pendingOps[id]? = some op → E.Valid op) (H : Batched E r t b rv)
    (hagree : rv.Agree E r') (A : Absorbed p (b.entries.map (·.1.id)) p') : Apart E r' p' := by
  have Rv : RecordsOK E rv := H.grows.ok R
  have R' : RecordsOK E r' := Rv.of_agree hagree
  refine ⟨fun id rec hrec hempty => ?_, fun id op rec hop hrec d hd hno => ?_⟩
  · obtain ⟨hnew, rec₀, hrec₀, hmiss⟩ := A.record_cases hrec
    rw [Bool.eq_false_iff]
    intro hres
    obtain ⟨x, hx⟩ := R'.depResolvable_iff.1 hres
    rw [hagree.ops] at hx
    have hx₀ : r.ops[id]? = some x := by
      rcases H.grows.getElem?_ops.1 hx with hx | ⟨e, he, rfl, rfl⟩
      · exact hx
      · exact absurd (List.mem_map_of_mem he) hnew
    by_cases hempty₀ : rec₀.missing = ∅
    · have := h.ready id rec₀ hrec₀ hempty₀
      rw [R.depResolvable_iff.2 ⟨x, hx₀⟩] at this
      cases this
    · obtain ⟨d, hd⟩ := BTreeSet.exists_mem_of_ne_empty hempty₀
      have hin : d ∈ b.entries.map (·.1.id) := by
        by_contra hnot
        have : d ∈ rec.missing := (hmiss d).2 ⟨hd, hnot⟩
        simp [hempty] at this
      obtain ⟨op, hop, hid, -⟩ := ok.opOf id rec₀ hrec₀
      have hopx : op = x := (hvalid id op hop).eq_of_id (R.valid hx₀) (hid.trans (R.opId id x hx₀).symm)
      obtain ⟨z, hz, hzd⟩ := R.closed _ x (R.mem_admitted hx₀) d (hopx ▸ hw id op rec₀ hop hrec₀ d hd)
      obtain ⟨e, he, heid⟩ := List.mem_map.1 hin
      have hfree := H.grows.new e he
      have hstored : r.ops[z.id]? = some z := hz.1
      rw [heid, ← show z.id = d from hzd, hstored] at hfree
      cases hfree
  · obtain ⟨-, rec₀, hrec₀, hmiss⟩ := A.record_cases hrec
    have hop₀ : p.pendingOps[id]? = some op := by
      rw [A.ops] at hop
      split at hop
      · cases hop
      · exact hop
    by_cases hd₀ : d ∈ rec₀.missing
    · have hin : d ∈ b.entries.map (·.1.id) := by
        by_contra hnot
        exact hno ((hmiss d).2 ⟨hd₀, hnot⟩)
      obtain ⟨e, he, rfl⟩ := List.mem_map.1 hin
      refine R'.reckoned (x := e.1) ?_ op
      rw [hagree.ops]
      exact H.grows.getElem?_ops.2 (Or.inr ⟨e, he, rfl, rfl⟩)
    · refine (h.known id op rec₀ hop₀ hrec₀ d hd hd₀).mono fun st hst => ?_
      rw [hagree.state]
      exact H.state_kept hst

/-- A reset drops the buffered ops of its topic, so the others keep what they know. -/
theorem Apart.reset (h : Apart E inner.toRecords inner.toPendingIndex) (R : RecordsOK E inner.toRecords)
    (ok : PendingOK inner.toPendingIndex) (T : ResetTo K inner t inner') :
    Apart E inner'.toRecords inner'.toPendingIndex := by
  have kept : ∀ {k : OpId} {rec : PendingRecord}, inner'.pendingRecords[k]? = some rec →
      k ∉ SetMap.get inner.pendingByTopic t ∧ inner.pendingRecords[k]? = some rec := by
    intro k rec hk
    rw [T.pending] at hk
    split at hk
    · cases hk
    · exact ⟨‹_›, hk⟩
  refine ⟨fun id rec hrec hempty => ?_, fun id op rec hop hrec d hd hno => ?_⟩
  · rw [T.records, Bool.eq_false_iff]
    intro hres
    have := h.ready id rec (kept hrec).2 hempty
    rw [Records.depResolvable_resetTopic hres] at this
    cases this
  · obtain ⟨hnot, hrec₀⟩ := kept hrec
    have hop₀ : inner.pendingOps[id]? = some op := by
      rwa [T.pendingOps, if_neg hnot] at hop
    have ht : op.body.topicId ≠ t := by
      intro ht
      obtain ⟨op', hop', -, htopic⟩ := ok.opOf id rec hrec₀
      rw [hop₀] at hop'
      cases hop'
      exact hnot ((ok.byTopic t id).2 ⟨rec, hrec₀, htopic.symm.trans ht⟩)
    refine (h.known id op rec hop₀ hrec₀ d hd hno).mono fun st hst => ⟨st, ?_⟩
    obtain ⟨-, -, -, -, hstate, -⟩ := R.reads_resetTopic (t := t) op.body.topicId
    rw [T.records, hstate, if_neg ht]
    exact hst

end Irokle
