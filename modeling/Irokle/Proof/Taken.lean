import Irokle.Proof.Complete
import Irokle.Proof.Receive

/-!
# Batches of a branch are taken

A batch of ops of a branch, given to a store that holds a part of it, is committed and buffered as
a whole: its ops are stored or wait for exactly what they miss, and nothing that was stored,
buffered or ready is lost. Only a bound of the store stops it.

* `bufferPending_complete` — the ops that miss something are buffered;
* `Takes` — what the batch leaves;
* `admitWithRetry_complete` — the batch is taken, or a bound is reached.
-/

namespace Irokle

open Std Outcome

variable {E : Env} {V : View} {K : Prop} {P : Op → Prop} {n : ℕ} {r rv : Records} {t : TopicId} {g x y op : Op}
  {γ : TopicGenesis} {H : Set Op} {inner : MemoryInner} {log log₁ log₂ log' : Oplog} {ops : List Op}
  {verified : BTreeSet OpId} {source : Option PeerId} {e : Error} {pending : List (Op × BTreeSet OpId)}
  {p p' p'' : PendingIndex}

/-! ## Buffering -/

/-- The buffer once the ops `pending` wait for what they miss. -/
structure Fills (p : PendingIndex) (pending : List (Op × BTreeSet OpId)) (p' : PendingIndex) : Prop where
  records : ∀ (k : OpId) rec, p'.pendingRecords[k]? = some rec → (∃ e ∈ pending, e.1.id = k ∧ rec.missing = e.2) ∨
    p.pendingRecords[k]? = some rec ∧ ∀ e ∈ pending, e.1.id ≠ k
  kept : ∀ (k : OpId) rec, p.pendingRecords[k]? = some rec → ∃ rec', p'.pendingRecords[k]? = some rec'
  filled : ∀ e ∈ pending, ∃ rec, p'.pendingRecords[e.1.id]? = some rec
  rejected : p'.rejected = p.rejected

theorem Fills.refl (p : PendingIndex) : Fills p [] p where
  records k rec h := Or.inr ⟨h, by simp⟩
  kept k rec h := ⟨rec, h⟩
  filled := by simp
  rejected := rfl

theorem Fills.trans {l l' : List (Op × BTreeSet OpId)} (h : Fills p l p') (h' : Fills p' l' p'') :
    Fills p (l ++ l') p'' where
  records k rec hrec := by
    rcases h'.records k rec hrec with ⟨e, he, hid, hmiss⟩ | ⟨hrec, hnot⟩
    · exact Or.inl ⟨e, by simp [he], hid, hmiss⟩
    · rcases h.records k rec hrec with ⟨e, he, hid, hmiss⟩ | ⟨hrec, hnot'⟩
      · exact Or.inl ⟨e, by simp [he], hid, hmiss⟩
      · exact Or.inr ⟨hrec, fun e he => (List.mem_append.1 he).elim (hnot' e) (hnot e)⟩
  kept k rec hrec := by
    obtain ⟨rec', hrec'⟩ := h.kept k rec hrec
    exact h'.kept k rec' hrec'
  filled e he := by
    rcases List.mem_append.1 he with he | he
    · obtain ⟨rec, hrec⟩ := h.filled e he
      exact h'.kept e.1.id rec hrec
    · exact h'.filled e he
  rejected := h'.rejected.trans h.rejected

theorem PutLeaves.fills {missing : BTreeSet OpId} (h : PutLeaves K inner op missing p')
    (hnew : inner.depResolvable op.id = false) : Fills inner.toPendingIndex [(op, missing)] p' := by
  rcases h.2 with ⟨rfl, hheld | ⟨rec, hrec, hmiss⟩⟩ | ⟨S, -⟩
  · rw [hnew] at hheld
    cases hheld
  · refine ⟨fun k rec' hk => ?_, fun k rec' hk => ⟨rec', hk⟩, by simpa using ⟨rec, hrec⟩, rfl⟩
    by_cases hid : op.id = k
    · subst hid
      rw [hrec] at hk
      cases hk
      exact Or.inl ⟨(op, missing), by simp, rfl, hmiss⟩
    · exact Or.inr ⟨hk, by simpa using hid⟩
  · obtain ⟨rec, hrec, hmiss, -⟩ := S.record
    refine ⟨fun k rec' hk => ?_, fun k rec' hk => ?_, by simpa using ⟨rec, hrec⟩, S.rejected⟩
    · by_cases hid : op.id = k
      · subst hid
        rw [hrec] at hk
        cases hk
        exact Or.inl ⟨(op, missing), by simp, rfl, hmiss⟩
      · exact Or.inr ⟨(S.records k hid).symm.trans hk, by simpa using hid⟩
    · by_cases hid : op.id = k
      · exact ⟨rec, hid ▸ hrec⟩
      · exact ⟨rec', (S.records k hid).trans hk⟩

/-- Nothing but a bound or a race keeps an op from being buffered. -/
theorem PutFails.limits {quota : Option StagingQuota} {missing : BTreeSet OpId} {genesis : Option OpId}
    (h : PutFails (E.reserve n) quota inner op (pendingMetaFor op missing) genesis e) (hgen : genesis = none)
    (hfree : ∀ d ∈ missing, inner.depResolvable d = false)
    (hrej : ∀ id, id = op.id ∨ id ∈ missing → id ∉ (inner.rejected[op.body.topicId]?.getD {}).ids)
    (hvalid : E.Valid op) (hpending : ∀ (id : OpId) x, inner.pendingOps[id]? = some x → E.Valid x ∧ x.id = id) :
    E.Limits e := by
  cases h with
  | limit h => exact Or.inl h
  | mismatch h => rcases h with h | h <;> exact absurd rfl h
  | stale h => exact absurd hgen h
  | conflict hd h =>
    rw [hfree _ hd] at h
    cases h
  | rejected hid h => exact absurd h (hrej _ hid)
  | collision h hne =>
    obtain ⟨hv, hid⟩ := hpending _ _ h
    exact absurd (hv.eq_of_id hvalid hid) hne
  | fault h => exact (Env.reserve_fromFault h).limits

/-- A buffered op is valid and stored under its id. -/
theorem LogOK.pendingOp (L : LogOK E K P log) (id : OpId) (x : Op) (h : log.inner.pendingOps[id]? = some x) :
    E.Valid x ∧ x.id = id := by
  refine ⟨(L.pending id x h).2.1, ?_⟩
  cases hrec : log.inner.pendingRecords[id]? with
  | none =>
    rw [L.buffer.ok.recordOf id hrec] at h
    cases h
  | some rec =>
    obtain ⟨y, hy, hid, -⟩ := L.buffer.ok.opOf id rec hrec
    rw [h] at hy
    cases hy
    exact hid

/-- The ops of a batch can be buffered: none of them and nothing they miss is stored or rejected. -/
structure Bufferable (E : Env) (P : Op → Prop) (inner : MemoryInner) (e : Op × BTreeSet OpId) : Prop where
  waits : Waits E P e
  new : inner.depResolvable e.1.id = false
  free : ∀ d ∈ e.2, inner.depResolvable d = false
  unrejected : ∀ id, id = e.1.id ∨ id ∈ e.2 → id ∉ (inner.rejected[e.1.body.topicId]?.getD {}).ids
  known : ∀ d ∈ e.1.body.deps, d ∉ e.2 → Reckoned E inner.toRecords e.1 d

/-- **The ops of a batch that miss something are buffered**, unless a bound or a race stops it. -/
theorem bufferPending_complete (source : Option PeerId) (t : TopicId) (hV : V.receiveGenesis = none)
    (committed : Admitted) (L : LogOK E K P log) (hpending : ∀ e ∈ pending, Bufferable E P log.inner e) :
    (∃ e log', Oplog.bufferPending E V source t committed log pending =
      (.error (admissionFailure committed e), log') ∧
        E.Limits e) ∨
      ∃ log', Oplog.bufferPending E V source t committed log pending = (.ok (), log') ∧
        Buffers E K P log (pending.map (·.1.id)) log' ∧
        Fills log.inner.toPendingIndex pending log'.inner.toPendingIndex ∧ log'.debug = log.debug := by
  induction pending generalizing log with
  | nil => exact Or.inr ⟨log, rfl, .refl L _, .refl _, rfl⟩
  | cons e rest ih =>
    have he := hpending e (by simp)
    have hbound : V.boundGenesis t = none := by simp [View.boundGenesis, hV]
    unfold Oplog.bufferPending
    rcases putPending_spec V (source.getD e.1.body.author)
      (V.boundGenesis t) L he.waits.1 he.waits.2.1 he.waits.2.2.1 he.waits.deps he.waits.2.2.2 he.known with ⟨err,
        log₁, h₁, -, -, -, hfail⟩ | ⟨log₁, h₁, hb₁, hdebug₁, hleaves⟩
    · have hlim : E.Limits err := hfail.limits hbound he.free he.unrejected he.waits.2.1 L.pendingOp
      rw [h₁]
      refine Or.inl ⟨err, log₁, ?_, hlim⟩
      rcases hlim with hlim | ⟨rfl, -⟩
      · cases err <;> first | rfl | cases hlim
      · rfl
    · rw [h₁]
      dsimp only
      have hfills := hleaves.fills he.new
      have hrecords := hb₁.quiet.records
      have hrest : ∀ e ∈ rest, Bufferable E P log₁.inner e := by
        intro e' he'
        have h := hpending e' (by simp [he'])
        exact ⟨h.waits, hrecords ▸ h.new, hrecords ▸ h.free, hfills.rejected ▸ h.unrejected, hrecords ▸ h.known⟩
      rcases ih hb₁.ok hrest with ⟨err, log₂, h₂, hlim⟩ | ⟨log₂, h₂, hb₂, hfills₂, hdebug₂⟩
      · exact Or.inl ⟨err, log₂, h₂, hlim⟩
      · exact Or.inr ⟨log₂, h₂, hb₁.trans hb₂, hfills.trans hfills₂, hdebug₂.trans hdebug₁⟩

/-! ## One batch -/

/-- The op with this id is stored or buffered. -/
def Oplog.Knows (log : Oplog) (id : OpId) : Prop :=
  (∃ op, log.inner.ops[id]? = some op) ∨ ∃ rec, log.inner.pendingRecords[id]? = some rec

/-- What a buffered op does not wait for is stored. -/
def WaitsForAll (inner : MemoryInner) : Prop :=
  ∀ (id : OpId) op rec, inner.pendingOps[id]? = some op → inner.pendingRecords[id]? = some rec →
    ∀ d ∈ op.body.deps, d ∉ rec.missing → ∃ x, inner.ops[d]? = some x

/-- A batch was taken and nothing was lost: its ops are stored or buffered, one whose dependencies are
stored is stored itself, and what was ready is stored or still ready. -/
structure Takes (log : Oplog) (ops : List Op) (log' : Oplog) : Prop where
  kept : ∀ (id : OpId) op, log.inner.ops[id]? = some op → log'.inner.ops[id]? = some op
  knows : ∀ id, log.Knows id → log'.Knows id
  taken : ∀ op ∈ ops, log'.Knows op.id
  held : ∀ op ∈ ops, (∀ d ∈ op.body.deps, ∃ x, log'.inner.ops[d]? = some x) → ∃ x, log'.inner.ops[op.id]? = some x
  waits : WaitsForAll log.inner → WaitsForAll log'.inner
  ready : WaitsForAll log.inner → ∀ id ∈ log.inner.pendingReady, (∃ x, log'.inner.ops[id]? = some x) ∨
    id ∈ log'.inner.pendingReady
  rejected : log'.inner.rejected = log.inner.rejected
  debug : log'.debug = log.debug

/-- The dependencies of the batch are stored or come with it. -/
def BringsDeps (r : Records) (ops : List Op) : Prop :=
  ∀ op ∈ ops, ∀ d ∈ op.body.deps, (∃ x, r.ops[d]? = some x) ∨ ∃ y ∈ ops, y.id = d

/-- The batch can be taken as a whole: it brings its dependencies, or nothing of the branch was rejected
before. -/
def Takeable (inner : MemoryInner) (H : Set Op) (t : TopicId) (ops : List Op) : Prop :=
  BringsDeps inner.toRecords ops ∨ ∀ x ∈ H, x.id ∉ (inner.rejected[t]?.getD {}).ids

/-- A batch that brings its dependencies has nothing to buffer. -/
theorem Built.pending_eq_nil {built : BuiltBatch} (C : Built E r false ops built t rv) (B : Branch E g γ H)
    (hops : ∀ op ∈ ops, op ∈ H) (hclosed : BringsDeps r ops) : built.pending = [] := by
  have hkept : ∀ (d : OpId) x, r.ops[d]? = some x → rv.ops[d]? = some x := by
    intro d x hx
    exact C.batched.grows.getElem?_ops.2 (Or.inl hx)
  -- an op of least generation among those that wait misses an op of the batch that does not wait
  have key : ∀ k, ∀ e ∈ built.pending, e.1.body.generation ≠ k := by
    intro k
    induction k using Nat.strong_induction_on with
    | _ k ih =>
      intro e he hk
      obtain ⟨hin, -, hne, hsub, hmiss⟩ := C.pending e he
      obtain ⟨d, hd⟩ := BTreeSet.exists_mem_of_ne_empty hne
      have hnone : rv.ops[d]? = none := (hmiss rfl d (hsub d hd)).1 hd
      rcases hclosed e.1 hin d (hsub d hd) with ⟨x, hx⟩ | ⟨y, hy, rfl⟩
      · rw [hkept d x hx] at hnone
        cases hnone
      · rcases C.handled rfl y hy with ⟨x, hx⟩ | ⟨e', he', hid⟩
        · rw [hx] at hnone
          cases hnone
        · have hy' : e'.1 = y := B.injOn (hops _ (C.pending e' he').1) (hops y hy) hid
          have hlt := B.generation_lt ⟨hops y hy, hops _ hin, hsub _ hd⟩
          exact ih y.body.generation (hk ▸ hlt) e' he' (by rw [hy'])
  exact List.eq_nil_iff_forall_not_mem.2 fun e he => key _ e he rfl

section Committed

variable {built : BuiltBatch} (L : LogOK E K P log) (C : Built E log.inner.toRecords false ops built t rv)
  (hcommit : CommitLeaves E K P log built none rv log₁)

include C hcommit

theorem CommitLeaves.kept {id : OpId} (hop : log.inner.ops[id]? = some op) : log₁.inner.ops[id]? = some op := by
  rw [hcommit.agree.ops]
  exact C.batched.grows.getElem?_ops.2 (Or.inl hop)

theorem CommitLeaves.stored_entry {id : OpId} (hid : id ∈ built.batch.entries.map (·.1.id)) :
    ∃ x, log₁.inner.ops[id]? = some x := by
  obtain ⟨e, he, rfl⟩ := List.mem_map.1 hid
  refine ⟨e.1, ?_⟩
  rw [hcommit.agree.ops]
  exact C.batched.grows.getElem?_ops.2 (Or.inr ⟨e, he, rfl, rfl⟩)

/-- An op buffered before is stored now, or waits for what is left of its record. -/
theorem CommitLeaves.pending_cases {id : OpId} {rec : PendingRecord}
    (hrec : log.inner.pendingRecords[id]? = some rec) :
    (∃ x, log₁.inner.ops[id]? = some x) ∨
      ∃ rec₁, log₁.inner.pendingRecords[id]? = some rec₁ ∧ ∀ d ∈ rec₁.missing, d ∈ rec.missing := by
  by_cases hin : id ∈ built.batch.entries.map (·.1.id)
  · exact Or.inl (hcommit.stored_entry C hin)
  · right
    have habs := (hcommit.absorbed rfl).records id
    rw [if_neg hin, hrec] at habs
    exact ⟨_, habs, fun d hd => (BTreeSet.mem_filter.1 hd).1⟩

/-- What a buffered op does not wait for after a commit is stored. -/
theorem CommitLeaves.waitsForAll (hw : WaitsForAll log.inner) : WaitsForAll log₁.inner := by
  intro id op rec hop hrec d hd hnot
  obtain ⟨-, rec₀, hrec₀, hmiss⟩ := (hcommit.absorbed rfl).record_cases hrec
  by_cases hd₀ : d ∈ rec₀.missing
  · have hin : d ∈ built.batch.entries.map (·.1.id) := by
      by_contra hin
      exact hnot ((hmiss d).2 ⟨hd₀, hin⟩)
    exact hcommit.stored_entry C hin
  · obtain ⟨x, hx⟩ := hw id op rec₀ (hcommit.shrinks.ops id op hop) hrec₀ d hd hd₀
    exact ⟨x, hcommit.kept C hx⟩

variable (L₁ : LogOK E K P log₁) (hb : Buffers E K P log₁ (built.pending.map (·.1.id)) log₂)
  (hfills : Fills log₁.inner.toPendingIndex built.pending log₂.inner.toPendingIndex)
  (hdebug : log₂.debug = log₁.debug)

include L₁ hb hfills

theorem CommitLeaves.waitsForAll_fills (hw : WaitsForAll log.inner) : WaitsForAll log₂.inner := by
  intro id op rec hop hrec d hd hnot
  rw [hb.quiet.records]
  obtain ⟨hv, hid⟩ := hb.ok.pendingOp id op hop
  rcases hfills.records id rec hrec with ⟨e, he, heq, hmiss⟩ | ⟨hrec₁, -⟩
  · obtain ⟨-, hv', -, -, hiff⟩ := C.pending e he
    obtain rfl := hv'.eq_of_id hv (heq.trans hid.symm)
    rw [hcommit.agree.ops]
    refine Option.ne_none_iff_exists'.1 fun hnone => hnot ?_
    rw [hmiss]
    exact (hiff rfl d hd).2 hnone
  · obtain ⟨op₁, hop₁, -⟩ := L₁.buffer.ok.opOf id rec hrec₁
    obtain ⟨hv₁, hid₁⟩ := L₁.pendingOp id op₁ hop₁
    obtain rfl := hv₁.eq_of_id hv (hid₁.trans hid.symm)
    exact hcommit.waitsForAll C hw id op₁ rec hop₁ hrec₁ d hd hnot

omit L₁ in
include L in
theorem CommitLeaves.ready_fills (hw : WaitsForAll log.inner) {id : OpId} (hid : id ∈ log.inner.pendingReady) :
    (∃ x, log₂.inner.ops[id]? = some x) ∨ id ∈ log₂.inner.pendingReady := by
  obtain ⟨rec, hrec, hempty⟩ := (L.buffer.ok.ready id).1 hid
  rcases hcommit.pending_cases C hrec with hx | ⟨rec₁, hrec₁, hmiss₁⟩
  · rw [hb.quiet.records]
    exact Or.inl hx
  · right
    obtain ⟨rec₂, hrec₂⟩ := hfills.kept id rec₁ hrec₁
    refine (hb.ok.buffer.ok.ready id).2 ⟨rec₂, hrec₂, ExtTreeSet.eq_empty_iff_forall_not_mem.2 fun d hd => ?_⟩
    rcases hfills.records id rec₂ hrec₂ with ⟨e, he, heq, hmiss⟩ | ⟨hrec₂', -⟩
    · -- a ready op has all its dependencies, so the batch would not let it wait
      obtain ⟨-, hv, -, hsub, hiff⟩ := C.pending e he
      obtain ⟨op, hop, -⟩ := L.buffer.ok.opOf id rec hrec
      obtain ⟨hv', hid'⟩ := L.pendingOp id op hop
      obtain rfl := hv.eq_of_id hv' (heq.trans hid'.symm)
      rw [hmiss] at hd
      obtain ⟨x, hx⟩ := hw id e.1 rec hop hrec d (hsub d hd) (by simp [hempty])
      have hkept := hcommit.kept C hx
      rw [hcommit.agree.ops, (hiff rfl d (hsub d hd)).1 hd] at hkept
      cases hkept
    · rw [hrec₁] at hrec₂'
      cases hrec₂'
      have := hmiss₁ d hd
      simp [hempty] at this

include L hdebug in
/-- **A committed batch loses nothing.** -/
theorem CommitLeaves.takes (hvalid : ∀ op ∈ ops, E.Valid op) : Takes log ops log₂ where
  kept id op hop := by
    rw [hb.quiet.records]
    exact hcommit.kept C hop
  knows id hid := by
    rcases hid with ⟨op, hop⟩ | ⟨rec, hrec⟩
    · exact Or.inl ⟨op, by rw [hb.quiet.records]; exact hcommit.kept C hop⟩
    · rcases hcommit.pending_cases C hrec with ⟨x, hx⟩ | ⟨rec₁, hrec₁, -⟩
      · exact Or.inl ⟨x, by rw [hb.quiet.records]; exact hx⟩
      · exact Or.inr (hfills.kept id rec₁ hrec₁)
  taken op hop := by
    rcases C.handled rfl op hop with ⟨x, hx⟩ | ⟨e, he, hid⟩
    · exact Or.inl ⟨x, by rw [hb.quiet.records, hcommit.agree.ops]; exact hx⟩
    · exact Or.inr (hid ▸ hfills.filled e he)
  held op hop hdeps := by
    rcases C.handled rfl op hop with ⟨x, hx⟩ | ⟨e, he, hid⟩
    · exact ⟨x, by rw [hb.quiet.records, hcommit.agree.ops]; exact hx⟩
    · obtain ⟨-, hv, hne, hsub, hiff⟩ := C.pending e he
      obtain rfl := hv.eq_of_id (hvalid op hop) hid
      obtain ⟨d, hd⟩ := BTreeSet.exists_mem_of_ne_empty hne
      obtain ⟨x, hx⟩ := hdeps d (hsub d hd)
      rw [hb.quiet.records, hcommit.agree.ops, (hiff rfl d (hsub d hd)).1 hd] at hx
      cases hx
  waits hw := hcommit.waitsForAll_fills C L₁ hb hfills hw
  ready hw id hid := hcommit.ready_fills L C hb hfills hw hid
  rejected := hfills.rejected.trans (hcommit.absorbed rfl).rejected
  debug := hdebug.trans hcommit.debug

end Committed

/-- The error a call failed with, without what it committed before. -/
def Error.root : Error → Error
  | .admissionCommitted _ source => source
  | e => e

theorem Env.Limits.refuses (h : E.Limits e) : e.Refuses True := by
  rcases h with h | ⟨rfl, -⟩
  · exact Error.refuses_of_isLimit h
  · trivial

/-- An error that reports no commit is its own root, also once it is reported after one. -/
theorem Error.root_eq (h : e.Refuses True) : e.root = e := by
  cases e <;> first | rfl | exact h.elim

theorem Error.root_failure (h : e.Refuses True) (admitted : Admitted) :
    (admissionFailure admitted e).root = e := by
  rw [admissionFailure_of_refuses h]
  split
  · exact root_eq h
  · rfl

theorem Env.Limits.root_eq (h : E.Limits e) : e.root = e := Error.root_eq h.refuses

/-- A bound of the store stopped the call. -/
def Stopped (E : Env) (res : Result α) : Prop := ∃ e, res = .error e ∧ E.Limits e.root

theorem CommitFails.limits {batch : AdmittedBatch} (h : CommitFails (E.reserve n) batch e)
    (heff : batch.effects.syncObligations = []) : E.Limits e := by
  cases h with
  | limit h => exact Or.inl h
  | fault h => exact (Env.reserve_fromFault h).limits
  | effects h => exact absurd heff h

theorem Takes.refl (log : Oplog) : Takes log [] log where
  kept _ _ h := h
  knows _ h := h
  taken := by simp
  held := by simp
  waits h := h
  ready _ _ h := Or.inr h
  rejected := rfl
  debug := rfl

theorem Takes.idle {log₂ : Oplog} (h : Takes log ops log₁) (hinner : log₂.inner = log₁.inner)
    (hdebug : log₂.debug = log₁.debug) :
    Takes log ops log₂ := by
  obtain ⟨h1, h2, h3, h4, h5, h6, h7, h8⟩ := h
  unfold Oplog.Knows at *
  rw [← hinner] at *
  exact ⟨h1, h2, h3, h4, h5, h6, h7, hdebug.trans h8⟩

/-- **A batch of ops of the branch is taken**, unless a bound or a race stops it. -/
theorem admitOpsBatch_complete (W : PartOf E g γ H t log.inner.toRecords) (L : LogOK E K P log)
    (hP : ∀ op ∈ ops, P op) (hV : V.receiveGenesis = none) (hops : ∀ op ∈ ops, op ∈ H)
    (htake : Takeable log.inner H t ops) :
    ∃ res log', log.admitOpsBatch E V source ops verified none none = (res, log') ∧
      (Stopped E res ∧ (BringsDeps log.inner.toRecords ops → Idle log log') ∨ ∃ acc, res = .ok acc ∧
        Takes log ops log') := by
  have hvalid : ∀ op ∈ ops, E.Valid op := fun op hop => W.branch.valid (hops op hop)
  unfold Oplog.admitOpsBatch
  simp only [Option.isSome_none, Bool.false_eq_true, if_false]
  have hpost : Post (buildBatch E V log.writes log.inner.toRecords log.cache source ops verified false none) _
    _ :=
    buildBatch_post L.records L.cache hvalid fun _ h => by cases h
  have hcomplete : Post (buildBatch E V log.writes log.inner.toRecords log.cache source ops verified false none) _
    _ :=
    buildBatch_complete W L.cache hV hops
  cases hbuild : buildBatch E V log.writes log.inner.toRecords log.cache source ops verified false none with
  | error e =>
    have hlim := hcomplete.of_error hbuild
    exact ⟨_, _, rfl, Or.inl ⟨⟨e, rfl, hlim.root_eq.symm ▸ hlim⟩, fun _ => .refl log⟩⟩
  | ok res =>
    cases res with
    | none =>
      have hnil : ops = [] := hpost.of_ok hbuild
      exact ⟨_, _, rfl, Or.inr ⟨∅, rfl, hnil ▸ .refl log⟩⟩
    | some built =>
      obtain ⟨⟨t', rv, C⟩, heff⟩ := hpost.of_ok hbuild
      dsimp only
      have C' : Built E log.inner.toRecords (none : Option ResetPlan).isSome ops built t' rv := C
      rcases commitBuilt_spec (V := V) L C' (by simp) hP hvalid with
        ⟨e, log₁, hcommit, hidle, -, hfail⟩ | ⟨log₁, hcommit, hleaves⟩
      · have hlim := (hfail rfl).limits (heff rfl)
        rw [hcommit]
        exact ⟨_, _, rfl, Or.inl ⟨⟨e, rfl, hlim.root_eq.symm ▸ hlim⟩, fun _ => hidle⟩⟩
      · rw [hcommit]
        dsimp only
        have L₁ : LogOK E K P log₁ := hleaves.logOK L C
        have hbufferable : ∀ e ∈ built.pending, Bufferable E P log₁.inner e := by
          intro e he
          obtain ⟨hin, hv, hne, hsub, hiff⟩ := C.pending e he
          have hunresolved : ∀ d, rv.ops[d]? = none → log₁.inner.depResolvable d = false := by
            intro d hd
            rw [← hleaves.agree.ops] at hd
            exact Bool.eq_false_iff.2 fun h => by
              obtain ⟨x, hx⟩ := L₁.records.depResolvable_iff.1 h
              rw [hd] at hx
              cases hx
          refine ⟨⟨hP e.1 hin, hv, hne, hsub⟩, hunresolved _ (C.waiting e he),
            fun d hd => hunresolved d ((hiff rfl d (hsub d hd)).1 hd), fun id hid => ?_, fun d hd hno =>
              C'.reckoned L₁.records hleaves.agree (by simp)
                (fun op hop => W.branch.valid (hops op hop)) he hd hno⟩
          rw [(hleaves.absorbed rfl).rejected, W.topic_of_mem (hops e.1 hin)]
          rcases htake with hclosed | hunrejected
          · rw [C.pending_eq_nil W.branch hops hclosed] at he
            simp at he
          · rcases hid with rfl | hid
            · exact hunrejected e.1 (hops e.1 hin)
            · obtain ⟨x, hx, rfl, -⟩ := (W.branch.links e.1 (hops e.1 hin)).deps id (hsub id hid)
              exact hunrejected x hx
        rcases bufferPending_complete source built.batch.topicId hV
          ⟨built.accepted, [], false⟩ L₁ hbufferable with ⟨e, log₂, h₂, hlim⟩ | ⟨log₂, h₂, hb, hfills, hdebug⟩
        · simp only [Option.map_none, Option.toList_none]
          rw [h₂]
          refine ⟨_, _, rfl,
            Or.inl ⟨⟨_, rfl, (Error.root_failure hlim.refuses _).symm ▸ hlim⟩, fun hclosed => ?_⟩⟩
          rw [C.pending_eq_nil W.branch hops hclosed] at h₂
          cases h₂
        · simp only [Option.map_none, Option.toList_none]
          rw [h₂]
          refine ⟨_, _, rfl, Or.inr ⟨_, rfl, ?_⟩⟩
          exact (hleaves.takes L C L₁ hb hfills hdebug hvalid).idle (Oplog.inner_cacheProjections log₂ built)
            (Oplog.debug_cacheProjections log₂ built)

/-! ## Retries -/

/-- The genesis of the branch collides with nothing. -/
theorem resolveAttempt_complete (W : PartOf E g γ H t log.inner.toRecords) (hops : ∀ op ∈ ops, op ∈ H) :
    log.resolveAttempt E ops verified = (.ok (ops, none), log) := by
  have hcollision : resolveGenesisCollision E log.inner.toRecords ops verified = .ok (ops, none, none) := by
    unfold resolveGenesisCollision
    split
    · rfl
    · rename_i genesis hfind
      obtain ⟨⟨γ', hpay⟩, -⟩ := isStructuralGenesis_iff.1 (List.find?_some hfind)
      obtain rfl := W.branch.eq_root_of_payload (hops _ (List.mem_of_find?_eq_some hfind)) hpay
      split
      · rfl
      · rename_i st hst
        obtain ⟨g', γ'', B', hstate⟩ := W.ok.state _ st hst
        obtain ⟨rfl, -⟩ := B'.root_unique W.branch (W.topic.symm ▸ W.sub)
        rw [if_pos hstate.genesis]
  unfold Oplog.resolveAttempt
  split
  · rw [hcollision]
  · rfl

/-- Without a racing writer only a bound stops a call. -/
theorem Stopped.isLimit {res : Result α} (hrace : ¬E.Raced) (h : Stopped E res) :
    ∃ e, res = .error e ∧ e.root.isLimit = true := by
  obtain ⟨e, rfl, hlim | ⟨-, hraced⟩⟩ := h
  · exact ⟨e, rfl, hlim⟩
  · exact absurd hraced hrace

/-- A bound is not retried. -/
theorem not_admissionRace (h : e.root.isLimit = true) : e ≠ .admissionConflict ∧ isAdmissionRace e = false := by
  cases e <;> simp_all [Error.root, Error.isLimit, isAdmissionRace]

/-- A conflict that came after a commit is not retried. -/
theorem not_admissionRace_of_root (h : e.root = .admissionConflict) (hne : e ≠ .admissionConflict) :
    isAdmissionRace e = false := by
  cases e <;> simp_all [Error.root, isAdmissionRace]

theorem Takes.of_idle {log₀ : Oplog} (h : Takes log₀ ops log₁) (hinner : log₀.inner = log.inner)
    (hdebug : log₀.debug = log.debug) :
    Takes log ops log₁ := by
  obtain ⟨h1, h2, h3, h4, h5, h6, h7, h8⟩ := h
  unfold Oplog.Knows at *
  rw [hinner] at *
  exact ⟨h1, h2, h3, h4, h5, h6, h7, h8.trans hdebug⟩

/-- The attempts of a batch. One that lost a race is repeated, so without a racing writer there is one. -/
theorem admitAttempts_complete {attempts : ℕ} (hcalm : ¬E.Raced ∨ BringsDeps log.inner.toRecords ops)
    (W : PartOf E g γ H t log.inner.toRecords) (L : LogOK E K P log) (hP : ∀ op ∈ ops, P op)
    (hV : V.receiveGenesis = none) (hops : ∀ op ∈ ops, op ∈ H) (htake : Takeable log.inner H t ops)
    (hattempts : ¬E.Raced → attempts ≠ 0) :
    ∃ res log', Oplog.admitAttempts E V source ops verified none attempts log = (res, log') ∧
      (Stopped E res ∨ ∃ acc, res = .ok (acc, none) ∧ Takes log ops log') := by
  induction attempts generalizing log with
  | zero =>
    refine ⟨_, _, rfl, Or.inl ⟨_, rfl, Or.inr ⟨rfl, ?_⟩⟩⟩
    by_contra hrace
    exact hattempts hrace rfl
  | succ attempts ih =>
    have hresolve : Oplog.resolveAttempt E { log with writes := log.writes + 1 } ops verified =
        (.ok (ops, none), { log with writes := log.writes + 1 }) := resolveAttempt_complete W hops
    have hticked := (Idle.ticked log).logOK L
    have hbatch : ∃ res log', Oplog.admitOpsBatch E V { log with writes := log.writes + 1 } source ops
      verified none none =
        (res, log') ∧ (Stopped E res ∧
          (BringsDeps log.inner.toRecords ops → Idle { log with writes := log.writes + 1 } log') ∨
          ∃ acc, res = .ok acc ∧ Takes { log with writes := log.writes + 1 } ops log') :=
      admitOpsBatch_complete W hticked hP hV hops htake
    obtain ⟨res, log', hres, hcases⟩ := hbatch
    refine admitAttempts_step (fun e h => Or.inl ⟨e, rfl, h.limits.root_eq.symm ▸ h.limits⟩) (fun h => ?_)
      (fun e log₁ h => ?_) fun ops' plan log₁ res' log₂ h hadmitted => ?_
    · simp [Oplog.behindBranch, hV] at h
    · cases hresolve.symm.trans h
    · cases hresolve.symm.trans h
      cases hres.symm.trans hadmitted
      rcases hcases with ⟨⟨e, rfl, hlim⟩, hidle⟩ | ⟨acc, rfl, htakes⟩
      · refine ⟨fun _ => Or.inl ⟨e, rfl, hlim⟩, fun e' he hrace => ?_⟩
        cases he
        have hconflict : e = .admissionConflict := by
          by_contra hne
          rcases hlim with h | ⟨h, -⟩
          · simp [(not_admissionRace h).2] at hrace
          · simp [not_admissionRace_of_root h hne] at hrace
        subst hconflict
        obtain ⟨-, hraced⟩ : Error.admissionConflict = Error.admissionConflict ∧ E.Raced :=
          hlim.resolve_left (by simp [Error.root, Error.isLimit])
        have hclosed := hcalm.resolve_left (not_not.2 hraced)
        have hinner : log'.inner = log.inner := (hidle hclosed).inner
        -- the attempt changed nothing, so the next one starts from the same store
        have hclosed' : BringsDeps log'.inner.toRecords ops := hinner ▸ hclosed
        obtain ⟨res', log'', hres', hcases'⟩ := ih (Or.inr hclosed') (hinner ▸ W) ((hidle hclosed).logOK hticked)
          (hinner ▸ htake) fun h => absurd hraced h
        refine ⟨res', log'', hres', hcases'.imp_right fun ⟨acc, hacc, htakes⟩ => ⟨acc, hacc, ?_⟩⟩
        exact htakes.of_idle hinner (hidle hclosed).debug
      · exact ⟨fun _ => Or.inr ⟨acc, rfl, htakes.of_idle rfl rfl⟩, fun _ he => by cases he⟩

/-- **A batch of ops of the branch is taken at once**, unless a bound of the store stops it. -/
theorem admitWithRetry_complete (source : Option PeerId) (verified : BTreeSet OpId)
    (hcalm : ¬E.Raced ∨ BringsDeps log.inner.toRecords ops) (W : PartOf E g γ H t log.inner.toRecords)
    (L : LogOK E K P log) (hP : ∀ op ∈ ops, P op) (hV : V.receiveGenesis = none) (hops : ∀ op ∈ ops, op ∈ H)
    (htake : Takeable log.inner H t ops) :
    ∃ res log', log.admitWithRetry E V source ops verified none = (res, log') ∧
      (Stopped E res ∨ ∃ acc, res = .ok (acc, none) ∧ Takes log ops log') := by
  have hcheck : Post (ops.forM fun op => if op.id ∈ verified then .ok () else do
      E.validateFrame op
      E.validate op : Result Unit) (fun _ => ∀ op ∈ ops, True) E.Limits := by
    refine Post.forM fun op hop => ?_
    split
    · exact Post.ok trivial
    · refine (validateFrame_post.mono (fun _ h => h) fun e h => h ▸ Or.inl rfl).bind fun _ _ => ?_
      have hok : E.validate op = .ok () := W.branch.valid (hops op hop)
      rw [hok]
      exact Post.ok trivial
  have hstale : Oplog.staleGenesis V ops = false := by simp [Oplog.staleGenesis, hV]
  unfold Oplog.admitWithRetry
  rw [if_neg (by simp [hstale])]
  dsimp only
  split
  · rename_i e he
    have hlim := hcheck.of_error he
    exact ⟨_, _, rfl, Or.inl ⟨e, rfl, hlim.root_eq.symm ▸ hlim⟩⟩
  · exact admitAttempts_complete hcalm W L hP hV hops htake fun _ => by decide

end Irokle
