import Irokle.Proof.Validate

/-!
# A built batch extends the branch

`BuildInv` relates the batch built so far to the records the store would have once it is committed:
the stored ones, without the topic when it is reset, grown by the entries.

* `Virtual.append` — the overlay of an admitted op is the append of that op;
* `buildOp_post` — each op of the batch keeps the invariant, and is refused as a stranger's only when
  the state of its ancestry does not list its author.
-/

namespace Irokle

open Std Outcome Causal List ExtTreeMap

/-- `rv` is `r` grown by the entries `l`, one fitting op of the topic `t` after the other. -/
inductive Grows (E : Env) (t : TopicId) (r : Records) : List (Op × OpMeta) → Records → Prop
  | nil : Grows E t r [] r
  | snoc {l : List (Op × OpMeta)} {rv : Records} {op : Op} {clk : ActorClock} {st : TopicState}
      (h : Grows E t r l rv) (ht : op.body.topicId = t) (A : Appends E rv op clk st) :
      Grows E t r (l ++ [(op, metaOf op clk)]) (rv.append E op (metaOf op clk) st)

variable {E : Env} {n : ℕ} {r r₀ rv : Records} {o : Overlay} {reset : Bool} {t : TopicId} {g x y op : Op}
  {γ : TopicGenesis} {ps : Projections} {m : OpMeta} {id : OpId} {st : TopicState} {clk : ActorClock}
  {l : List (Op × OpMeta)}

theorem Grows.ok (R : RecordsOK E r) (h : Grows E t r l rv) : RecordsOK E rv := by
  induction h with
  | nil => exact R
  | snoc _ _ A ih => exact ih.append A

/-- What the grown records hold. -/
theorem Grows.getElem?_ops (h : Grows E t r l rv) :
    rv.ops[id]? = some x ↔ r.ops[id]? = some x ∨ ∃ e ∈ l, e.1 = x ∧ x.id = id := by
  induction h with
  | nil => simp
  | @snoc l rv op clk st _ _ A ih =>
    simp only [Records.append, ExtTreeMap.getElem?_insert, Std.compare_eq_iff_eq]
    split
    · rename_i hid
      have hnone : rv.ops[id]? = none := hid ▸ A.new
      constructor
      · intro h
        exact Or.inr ⟨(op, metaOf op clk), by simp, Option.some.inj h, Option.some.inj h ▸ hid⟩
      · rintro (h | ⟨e, he, rfl, hx⟩)
        · rw [ih.2 (Or.inl h)] at hnone
          cases hnone
        · rcases mem_append.1 he with he | he
          · rw [ih.2 (Or.inr ⟨e, he, rfl, hx⟩)] at hnone
            cases hnone
          · rw [mem_singleton.1 he]
    · rename_i hid
      rw [ih]
      refine or_congr_right ⟨?_, ?_⟩
      · rintro ⟨e, he, hrest⟩
        exact ⟨e, mem_append_left _ he, hrest⟩
      rintro ⟨e, he, rfl, hx⟩
      rcases mem_append.1 he with he | he
      · exact ⟨e, he, rfl, hx⟩
      · rw [mem_singleton.1 he] at hx
        exact absurd hx hid

theorem Grows.topic (h : Grows E t r l rv) : ∀ e ∈ l, e.1.body.topicId = t := by
  induction h with
  | nil => simp
  | snoc _ ht _ ih =>
    intro e he
    rcases mem_append.1 he with he | he
    · exact ih e he
    · rw [mem_singleton.1 he]
      exact ht

/-- The overlay of an admitted op reads like the records with it. -/
theorem Virtual.append (V : Virtual E r o reset t rv) (A : Appends E rv op clk st) (ht : op.body.topicId = t) :
    Virtual E r
      { ops := o.ops.insert op.id op, metas := o.metas.insert op.id (metaOf op clk)
        tips := o.tips.insert (op.body.topicId, op.body.actorId) (op.body.actorSeq, op.id)
        index := o.index.insert (op.body.topicId, op.body.actorId, op.body.actorSeq) op.id }
      reset t (rv.append E op (metaOf op clk) st) where
  ok := V.ok.append A
  metas id x h := by
    simp only [Records.append, ExtTreeMap.getElem?_insert, Std.compare_eq_iff_eq] at h ⊢
    split at h
    · rename_i hid
      simp [hid]
    · rename_i hid
      simp only [hid, if_false]
      exact V.metas id x h
  ops id x h := by
    simp only [Records.append, ExtTreeMap.getElem?_insert, Std.compare_eq_iff_eq] at h ⊢
    split at h
    · rename_i hid
      simp [hid, ← h]
    · rename_i hid
      simp only [hid, if_false]
      exact V.ops id x h
  tips a := by
    rw [V.ok.actorTip_append A]
    simp only [ExtTreeMap.getElem?_insert, Std.compare_eq_iff_eq, Prod.mk.injEq]
    split
    · simp
    · exact V.tips a
  index a s := by
    have hnone : rv.actorBySeq[(op.body.topicId, op.body.actorId, op.body.actorSeq)]? = none := by
      cases h : rv.actorBySeq[(op.body.topicId, op.body.actorId, op.body.actorSeq)]? with
      | none => rfl
      | some id =>
        obtain ⟨x, hx, -, ha, hs⟩ := (V.ok.slots _ _ _ _).1 h
        exact absurd hs (A.lt_seq V.ok hx ha).ne
    have hidx := V.index a s
    simp only [Records.append, Records.writeEntry, metaOf, ExtTreeMap.getElem?_insert, Std.compare_eq_iff_eq,
      Prod.mk.injEq]
    by_cases hkey : op.body.topicId = t ∧ op.body.actorId = a ∧ op.body.actorSeq = s
    · obtain ⟨rfl, rfl, rfl⟩ := hkey
      rw [hnone, Option.or_eq_none_iff] at hidx
      simp [hidx.1]
    · simpa only [if_neg hkey] using hidx
  resolved id h := by
    simp only [Records.append, ExtTreeMap.getElem?_insert, Std.compare_eq_iff_eq]
    split
    · exact ⟨op, rfl⟩
    · rename_i hid
      refine V.resolved id (h.imp_left fun h => ?_)
      simpa [ExtTreeMap.contains_insert, hid] using h
  present id x h htop := by
    simp only [Records.append, ExtTreeMap.getElem?_insert, Std.compare_eq_iff_eq] at h
    split at h
    · rename_i hid
      exact Or.inl (by simp [hid])
    · refine (V.present id x h htop).imp_left fun h => ?_
      simp [ExtTreeMap.contains_insert, h]

/-! ## The batch so far -/

/-- The records a batch builds on: without the topic when it is reset. -/
def Records.base (r : Records) (reset : Bool) (t : TopicId) : Records := if reset then r.resetTopic t else r

theorem RecordsOK.base (R : RecordsOK E r) (reset : Bool) (t : TopicId) : RecordsOK E (r.base reset t) := by
  unfold Records.base
  split
  · exact R.resetTopic t
  · exact R

/-- An empty overlay reads the base. -/
theorem RecordsOK.virtual (R : RecordsOK E r) (reset : Bool) (t : TopicId) :
    Virtual E r {} reset t (r.base reset t) := by
  cases reset with
  | false =>
    refine ⟨R, by simp [Records.base], ?_, by simp [Records.base], by simp [Records.base], ?_, ?_⟩
    · intro id op h
      simpa [Records.base] using h
    · intro id h
      exact R.depResolvable_iff.1 (by simpa using h)
    · intro id op h _
      exact Or.inr ⟨rfl, R.depResolvable_iff.2 ⟨op, h⟩⟩
  | true =>
    obtain ⟨-, -, -, -, -, -, hslot, htip⟩ := R.reads_resetTopic (t := t) t
    refine ⟨R.resetTopic t, ?_, ?_, ?_, ?_, by simp, ?_⟩
    · intro id op h
      have hdrop := R.ops_resetTopic (t := t)
      have hm := hdrop.metas id
      change (r.resetTopic t).ops[id]? = some op at h
      change (r.resetTopic t).metas[id]? = _ at hm
      have hnot : id ∉ (r.listOpIds t).toList := by
        intro hin
        have ho := hdrop.ops id
        change (r.resetTopic t).ops[id]? = _ at ho
        rw [h, if_pos hin] at ho
        cases ho
      rw [if_neg hnot] at hm
      simpa [Records.base] using hm.symm
    · intro id op h
      simpa using (R.getElem?_resetTopic.1 h).1
    · intro a
      simpa [Records.base] using (htip a).symm
    · intro a s
      simpa [Records.base] using (hslot a s).symm
    · intro id op h htop
      exact absurd htop (R.getElem?_resetTopic.1 h).2

/-- An op is stored completely or not at all. -/
theorem RecordsOK.storedOpState_eq (R : RecordsOK E r) :
    storedOpState r op = if r.ops.contains op.id then .complete else .absent := by
  unfold storedOpState
  rw [R.contains_meta]
  by_cases h : r.ops.contains op.id
  · simp [h]
  · have hnone : ∀ x, r.ops[op.id]? ≠ some x := by
      intro x hx
      exact h (by rw [contains_eq_isSome_getElem?, hx]; rfl)
    have hslot : r.actorBySeq[(op.body.topicId, op.body.actorId, op.body.actorSeq)]? ≠ some op.id := by
      intro hs
      obtain ⟨x, hx, hid, -⟩ := (R.slots _ _ _ _).1 hs
      exact hnone x (hid ▸ hx.1)
    have hchild : r.childrenOf op.id = ∅ := by
      by_contra hne
      obtain ⟨c, hc⟩ := BTreeSet.exists_mem_of_ne_empty hne
      obtain ⟨x, hx, -, hdep⟩ := (R.children _ _).1 hc
      obtain ⟨y, hy, hid⟩ := R.closed x.body.topicId x ⟨hx, rfl⟩ op.id hdep
      exact hnone y (by rw [← show y.id = op.id from hid]; exact hy.1)
    simp [h, hslot, hchild]

/-- The batch after the ops `done`: `rv` are the records it would commit, grown from `base`. -/
structure BuildInv (E : Env) (r base : Records) (reset : Bool) (t : TopicId) (expected : Option TopicState)
    (done : List Op) (b : Build) (rv : Records) : Prop where
  virtual : Virtual E r b.overlay reset t rv
  grows : Grows E t base b.entries rv
  heads : b.heads = rv.headsOf t
  noState : b.state = none → rv.admitted t = ∅ ∧ b.projections = ∅
  state : ∀ st, b.state = some st → ∃ g γ, Branch E g γ (rv.admitted t) ∧ StateOf (rv.admitted t) g γ st ∧
    BranchProj E g γ b.projections
  unchanged : b.stateChanged = false → b.state = expected
  changed : b.stateChanged = true → b.state ≠ none
  entries : ∀ e ∈ b.entries, e.1 ∈ done
  overlay : ∀ id, b.overlay.ops.contains id = true ↔ ∃ e ∈ b.entries, e.1.id = id
  accepted : ∀ id, id ∈ b.accepted ↔ ∃ e ∈ b.entries, e.1.id = id
  pending : ∀ e ∈ b.pending, e.1 ∈ done ∧ E.Valid e.1 ∧ e.2 ≠ ∅ ∧ e.2 = missingDepsProjected r b.overlay e.1 reset
  waiting : ∀ e ∈ b.pending, rv.ops[e.1.id]? = none
  handled : reset = false → ∀ op ∈ done, (∃ x, rv.ops[op.id]? = some x) ∨ ∃ e ∈ b.pending, e.1 = op
  genesis : ∀ op ∈ done, isStructuralGenesis op = true → ∃ x, rv.ops[op.id]? = some x

variable {base : Records} {b : Build} {done : List Op} {expected : Option TopicState}

theorem missingDepsProjected_congr {o' : Overlay} {x : Op}
    (h : ∀ d ∈ x.body.deps, o'.ops.contains d = o.ops.contains d) :
    missingDepsProjected r o' x reset = missingDepsProjected r o x reset := by
  refine ExtTreeSet.ext_mem fun d => ?_
  unfold missingDepsProjected
  simp only [ExtTreeSet.mem_filter]
  constructor
  · rintro ⟨hd, hm⟩
    exact ⟨hd, by simpa [h d hd] using hm⟩
  · rintro ⟨hd, hm⟩
    exact ⟨hd, by simpa [h d hd] using hm⟩

/-- A structural genesis misses nothing. -/
theorem missingDepsProjected_eq_empty (h : isStructuralGenesis op = true) :
    missingDepsProjected r o op reset = ∅ := by
  obtain ⟨-, -, -, hdeps⟩ := isStructuralGenesis_iff.1 h
  refine ExtTreeSet.eq_empty_iff_forall_not_mem.2 fun d hd => ?_
  have := (ExtTreeSet.mem_filter.1 hd).1
  simp [hdeps] at this

namespace BuildInv

variable (I : BuildInv E r base reset t expected done b rv)

include I

/-- The projections at hand belong to the branch of the records. -/
theorem branchProj (B : Branch E g γ (rv.admitted t)) : BranchProj E g γ b.projections := by
  cases hst : b.state with
  | none =>
    rw [(I.noState hst).2]
    intro id st h
    simp at h
  | some st =>
    obtain ⟨g', γ', B', -, hps⟩ := I.state st hst
    obtain ⟨rfl, rfl⟩ := B'.root_unique B subset_rfl
    exact hps

/-- An op that changes nothing but the projections. -/
theorem skip {ps' : Projections} (hps : b.state = none → ps' = ∅)
    (hps' : ∀ g γ, Branch E g γ (rv.admitted t) → BranchProj E g γ ps')
    (hop : reset = false → (∃ x, rv.ops[op.id]? = some x) ∨ ∃ e ∈ b.pending, e.1 = op)
    (hgen : isStructuralGenesis op = true → ∃ x, rv.ops[op.id]? = some x) :
    BuildInv E r base reset t expected (done ++ [op]) { b with projections := ps' } rv where
  virtual := I.virtual
  grows := I.grows
  heads := I.heads
  noState h := ⟨(I.noState h).1, hps h⟩
  state st h := by
    obtain ⟨g, γ, B, hst, -⟩ := I.state st h
    exact ⟨g, γ, B, hst, hps' g γ B⟩
  unchanged := I.unchanged
  changed := I.changed
  entries e he := mem_append_left _ (I.entries e he)
  overlay := I.overlay
  accepted := I.accepted
  pending e he := by
    obtain ⟨hmem, hrest⟩ := I.pending e he
    exact ⟨mem_append_left _ hmem, hrest⟩
  waiting := I.waiting
  handled hr x hx := by
    rcases mem_append.1 hx with hx | hx
    · exact I.handled hr x hx
    · rw [mem_singleton.1 hx]
      exact hop hr
  genesis x hx := by
    rcases mem_append.1 hx with hx | hx
    · exact I.genesis x hx
    · rw [mem_singleton.1 hx]
      exact hgen

/-- An op that waits for what it misses. -/
theorem addPending (hvalid : E.Valid op) (hnew : rv.ops[op.id]? = none)
    (hmissing : (missingDepsProjected r b.overlay op reset).isEmpty = false) :
    BuildInv E r base reset t expected (done ++ [op])
      (b.addPending op (missingDepsProjected r b.overlay op reset)) rv where
  virtual := I.virtual
  grows := I.grows
  heads := I.heads
  noState := I.noState
  state := I.state
  unchanged := I.unchanged
  changed := I.changed
  entries e he := mem_append_left _ (I.entries e he)
  overlay := I.overlay
  accepted := I.accepted
  pending e he := by
    rcases mem_append.1 he with he | he
    · obtain ⟨hmem, hrest⟩ := I.pending e he
      exact ⟨mem_append_left _ hmem, hrest⟩
    · rw [mem_singleton.1 he]
      refine ⟨by simp, hvalid, fun h0 => ?_, rfl⟩
      change missingDepsProjected r b.overlay op reset = ∅ at h0
      rw [h0] at hmissing
      simp at hmissing
  waiting e he := by
    rcases mem_append.1 he with he | he
    · exact I.waiting e he
    · rw [mem_singleton.1 he]
      exact hnew
  handled hr x hx := by
    rcases mem_append.1 hx with hx | hx
    · exact (I.handled hr x hx).imp_right fun ⟨e, he, h⟩ => ⟨e, mem_append_left _ he, h⟩
    · rw [mem_singleton.1 hx]
      exact Or.inr ⟨_, mem_append_right _ (mem_singleton.2 rfl), rfl⟩
  genesis x hx hgen := by
    rcases mem_append.1 hx with hx | hx
    · exact I.genesis x hx hgen
    · rw [mem_singleton.1 hx] at hgen
      rw [missingDepsProjected_eq_empty hgen] at hmissing
      simp at hmissing

/-- An admitted op. -/
theorem addEntry {ps' : Projections} {st' : TopicState} {flag : Bool} (A : Appends E rv op clk st')
    (ht : op.body.topicId = t) (horder : ∀ x ∈ done, x.id ≠ op.id ∧ op.id ∉ x.body.deps)
    (hst : ∃ g γ, Branch E g γ (insert op (rv.admitted t)) ∧ StateOf (insert op (rv.admitted t)) g γ st' ∧
      BranchProj E g γ ps') (hflag : flag = false → b.state = some st') :
    BuildInv E r base reset t expected (done ++ [op]) (b.addEntry op (metaOf op clk) (some st', flag) ps')
      (rv.append E op (metaOf op clk) st') where
  virtual := I.virtual.append A ht
  grows := I.grows.snoc ht A
  heads := by
    rw [headsOf_append, if_pos ht]
    simp only [Build.addEntry, I.heads]
  noState h := by cases h
  state st h := by
    obtain ⟨g, γ, B, hst, hps⟩ := hst
    cases h
    subst ht
    refine ⟨g, γ, ?_⟩
    rw [admitted_append_self A.new]
    exact ⟨B, hst, hps⟩
  unchanged h := by
    simp only [Build.addEntry, Bool.or_eq_false_iff] at h ⊢
    rw [← hflag h.2]
    exact I.unchanged h.1
  changed _ := by simp [Build.addEntry]
  entries e he := by
    rcases mem_append.1 he with he | he
    · exact mem_append_left _ (I.entries e he)
    · rw [mem_singleton.1 he]
      simp
  overlay id := by
    simp only [Build.addEntry, ExtTreeMap.contains_insert, Bool.or_eq_true, beq_iff_eq, Std.compare_eq_iff_eq,
      I.overlay, mem_append, mem_singleton, or_and_right, exists_or, exists_eq_left, or_comm]
  accepted id := by
    simp only [Build.addEntry, ExtTreeSet.mem_insert, Std.compare_eq_iff_eq, I.accepted, mem_append,
      mem_singleton, or_and_right, exists_or, exists_eq_left, or_comm]
  pending e he := by
    obtain ⟨hmem, hvalid, hne, heq⟩ := I.pending e he
    refine ⟨mem_append_left _ hmem, hvalid, hne, heq.trans ?_⟩
    refine (missingDepsProjected_congr fun d hd => ?_).symm
    have hdne : op.id ≠ d := fun h => (horder e.1 hmem).2 (h ▸ hd)
    simp [Build.addEntry, ExtTreeMap.contains_insert, hdne]
  waiting e he := by
    have hne := (horder e.1 (I.pending e he).1).1
    have hold := I.waiting e he
    simp [Records.append, ExtTreeMap.getElem?_insert, Ne.symm hne, hold]
  handled hr x hx := by
    rcases mem_append.1 hx with hx | hx
    · refine (I.handled hr x hx).imp_left fun h => ?_
      obtain ⟨y, hy⟩ := h
      simp only [Records.append, ExtTreeMap.getElem?_insert]
      split
      · exact ⟨op, rfl⟩
      · exact ⟨y, hy⟩
    · rw [mem_singleton.1 hx]
      exact Or.inl ⟨op, by simp [Records.append]⟩
  genesis x hx hgen := by
    rcases mem_append.1 hx with hx | hx
    · obtain ⟨y, hy⟩ := I.genesis x hx hgen
      simp only [Records.append, ExtTreeMap.getElem?_insert]
      split
      · exact ⟨op, rfl⟩
      · exact ⟨y, hy⟩
    · rw [mem_singleton.1 hx]
      exact ⟨op, by simp [Records.append]⟩

end BuildInv

/-! ## One op of the batch -/

theorem metaProjected_post : Post (metaProjected r o id) (fun _ => True) fun e => e = .missingDependency id := by
  unfold metaProjected
  split
  · exact Post.ok trivial
  · exact Post.error rfl

theorem checkedNext_plain {k : ℕ} : Post (checkedNext k) (fun _ => True) (Error.Refuses False) :=
  checkedNext_post.mono (fun _ _ => trivial) fun e h => by rw [h.1]; trivial

/-- Buffering is refused for other reasons than membership, and skipped only for a stored op. -/
theorem validatePendingOp_post {missing : BTreeSet OpId} {state : Option TopicState} :
    Post (validatePendingOp E r o reset missing state op)
      (fun res => res = .duplicate → r.depResolvable op.id = true) (Error.Refuses False) := by
  have hmeta : ∀ {id}, Post (metaProjected r o id) (fun _ => True) (Error.Refuses False) :=
    metaProjected_post.mono (fun _ _ => trivial) fun e h => by rw [h]; trivial
  have hpay : Post (pendingPayload state op) (fun _ => True) (Error.Refuses False) := by
    unfold pendingPayload
    cases op.body.payload with
    | genesis γ => exact refuseIf_post (fun _ => trivial) fun _ => trivial
    | control c => exact refuseIf_post (fun _ => trivial) fun _ => trivial
    | event env =>
      refine refuseIf_bind (fun _ => trivial) fun _ => ?_
      cases state with
      | none => exact Post.pure trivial
      | some st =>
        exact refuseIf_post (fun _ => trivial) fun _ => trivial
  have hprev : Post (pendingPrev r o missing op.body) (fun _ => True) (Error.Refuses False) := by
    unfold pendingPrev
    split
    · exact refuseIf_post (fun _ => trivial) fun _ => trivial
    · refine refuseIf_bind (fun _ => trivial) fun _ => refuseIf_bind (fun _ => trivial) fun _ => ?_
      split
      · exact Post.pure trivial
      · refine hmeta.bind fun m _ => refuseIf_bind (fun _ => trivial) fun _ => checkedNext_plain.bind
          fun k _ => ?_
        exact refuseIf_post (fun _ => trivial) fun _ => trivial
  have hdeps : Post (pendingDeps r o missing op.body) (fun _ => True) (Error.Refuses False) := by
    unfold pendingDeps
    refine (Post.forM (I := fun _ => True) fun d _ => ?_).mono (fun _ _ => trivial) fun _ h => h
    split
    · exact Post.pure trivial
    · refine hmeta.bind fun m _ => refuseIf_bind (fun _ => trivial) fun _ => ?_
      split
      · exact checkedNext_plain.bind fun k _ => Post.throw trivial
      · exact Post.pure trivial
  unfold validatePendingOp
  refine refuseIf_bind (fun _ => trivial) fun _ => refuseIf_bind (fun _ => trivial) fun _ => ?_
  refine refuseIf_bind (fun _ => trivial) fun _ => refuseIf_bind (fun _ => trivial) fun _ => ?_
  split
  · rename_i hdup
    rw [Bool.and_eq_true] at hdup
    exact Post.pure fun _ => hdup.2
  · refine hpay.bind fun _ _ => hprev.bind fun _ _ => ?_
    split
    · refine checkedNext_plain.bind fun k _ => ?_
      split
      · split
        · exact Post.pure fun _ => ‹_›
        · exact Post.throw trivial
      · exact refuseIf_bind (fun _ => trivial) fun _ => hdeps.bind fun _ _ => Post.pure (by simp)
    · exact hdeps.bind fun _ _ => Post.pure (by simp)

theorem validate_post : Post (E.validate op) (fun _ => E.Valid op) (Error.Refuses False) := by
  refine Post.intro (fun _ h => h) fun e h => ?_
  unfold Env.validate at h
  split at h
  · cases h
    trivial
  · rcases E.verify_error _ _ h with ⟨m, rfl⟩ | rfl | rfl <;> trivial

theorem validateFrame_post : Post (E.validateFrame op) (fun _ => True) fun e => e = .opTooLarge := by
  unfold Env.validateFrame
  split
  · exact Post.error rfl
  · exact Post.ok trivial

/-- The op is refused as a stranger's only when its ancestry does not list its author. -/
def StrangerOnly (E : Env) (S : Set Op) (op : Op) (e : Error) : Prop :=
  e.Refuses (∃ g γ, Branch E g γ S ∧ Stranger E g γ S op)

/-- The branch of `buildAbsent` for an op whose dependencies are there. -/
def buildComplete (E : Env) (n : ℕ) (r : Records) (reset : Bool) (b : Build) (op : Op) : Result Build := do
  let (admission, projections) ← validateOpProjected E n r b.overlay reset b.heads b.state b.projections op
  match admission with
  | .duplicate => return { b with projections := projections }
  | .admitted =>
    let m ← metaForProjected r b.overlay op
    let state ← nextState b.state op
    return b.addEntry op m state projections

theorem BuildInv.admitGenesis (I : BuildInv E r base reset t expected done b rv) (hvalid : E.Valid op)
    (ht : op.body.topicId = t) (hpay : op.body.payload = .genesis γ) (hnew : rv.ops[op.id]? = none)
    (horder : ∀ x ∈ done, x.id ≠ op.id ∧ op.id ∉ x.body.deps) :
    Post (buildComplete E n r reset b op)
      (fun b' => ∃ rv', BuildInv E r base reset t expected (done ++ [op]) b' rv')
        (StrangerOnly E (rv.admitted t) op) := by
  have hpost : Post (validateOpProjected E n r b.overlay reset b.heads b.state b.projections op) _ _ :=
    I.virtual.validateGenesis_post hvalid ht hpay hnew fun h => (I.noState h).1
  unfold buildComplete
  refine (hpost.mono (fun _ h => h) fun e h => h.2.mono False.elim).bind ?_
  rintro _ ⟨rfl, hstate, F⟩
  obtain ⟨hm, hmok⟩ := Virtual.metaForProjected_genesis (r := r) (o := b.overlay) hvalid
    (isStructuralGenesis_iff.1 F.structural).2.2.2
  have hS : rv.admitted op.body.topicId = ∅ := ht ▸ (I.noState hstate).1
  have hB : Branch E op γ (insert op (rv.admitted op.body.topicId)) := by
    rw [hS]
    simpa using F.branch
  have hstate' : StateOf (insert op (rv.admitted op.body.topicId)) op γ (genesisState op γ) := by
    rw [hS]
    simpa using stateOf_genesisState hpay
  have A : Appends E rv op ∅ (genesisState op γ) := ⟨hnew, hmok, op, γ, hB, hstate'⟩
  rw [hm]
  simp only [ok_bind, nextState, hpay]
  subst ht
  refine Post.pure ⟨_, I.addEntry A rfl horder ⟨op, γ, hB, hstate', ?_⟩ (by simp)⟩
  rw [(I.noState hstate).2]
  intro id st h
  simp at h

theorem BuildInv.admitOp (I : BuildInv E r base reset t expected done b rv) (hvalid : E.Valid op)
    (ht : op.body.topicId = t) (hpay : ∀ γ', op.body.payload ≠ .genesis γ') (hnew : rv.ops[op.id]? = none)
    (hstored : r.depResolvable op.id = true → reset = true)
    (horder : ∀ x ∈ done, x.id ≠ op.id ∧ op.id ∉ x.body.deps)
    (hdeps : ∀ d ∈ op.body.deps, ∃ x, rv.ops[d]? = some x) (hst : b.state = some st) :
    Post (buildComplete E n r reset b op)
      (fun b' => ∃ rv', BuildInv E r base reset t expected (done ++ [op]) b' rv')
        (StrangerOnly E (rv.admitted t) op) := by
  obtain ⟨g, γ, B, hstate, hps⟩ := I.state st hst
  have hpost := I.virtual.validateOpProjected_post (n := n) B hstate hps hvalid ht hpay hdeps hnew
  have hnext := Virtual.nextState_post hstate hpay
  rw [← hst] at hpost hnext
  rw [← I.heads] at hpost
  unfold buildComplete
  refine (hpost.mono (fun _ h => h) ?_).bind ?_
  · rintro e (he | ⟨-, he⟩)
    · exact he.refuses
    · exact he.mono fun h => ⟨g, γ, B, h⟩
  rintro ⟨admission, ps'⟩ ⟨hps', hfits, hdup⟩
  cases admission with
  | duplicate =>
    refine Post.pure ⟨rv, I.skip (by simp [hst]) (fun g' γ' B' => ?_) (fun hr => ?_) fun hgen => ?_⟩
    · obtain ⟨rfl, rfl⟩ := B.root_unique B' subset_rfl
      exact hps'
    · rw [hstored (hdup rfl)] at hr
      cases hr
    · obtain ⟨⟨γ', hγ'⟩, -⟩ := isStructuralGenesis_iff.1 hgen
      exact absurd hγ' (hpay γ')
  | admitted =>
    have F := hfits.1 rfl
    have hmem : ∀ d ∈ op.body.deps, ∃ x ∈ rv.admitted t, x.id = d := by
      intro d hd
      obtain ⟨x, hx, hid, -⟩ := F.links.deps d hd
      exact ⟨x, hx, hid⟩
    refine (I.virtual.metaForProjected_post B hvalid ht hmem).never.bind ?_
    rintro _ ⟨clk, rfl, hmok⟩
    refine hnext.never.bind ?_
    rintro ⟨_, flag⟩ ⟨st', rfl, hst', hflag⟩
    have hB : Branch E g γ (insert op (rv.admitted t)) :=
      B.insert (ht.trans B.root_topic.symm) F.links F.authored F.free
    subst ht
    have A : Appends E rv op clk st' := ⟨hnew, hmok, g, γ, hB, hst'⟩
    refine Post.pure ⟨_, I.addEntry A rfl horder ⟨g, γ, hB, hst', hps'⟩ fun h => ?_⟩
    rw [hst, hflag h]

theorem BuildInv.buildAbsent (I : BuildInv E r base reset t expected done b rv) (hvalid : E.Valid op)
    (ht : op.body.topicId = t) (hnew : rv.ops[op.id]? = none)
    (hstored : r.depResolvable op.id = true → reset = true)
    (horder : ∀ x ∈ done, x.id ≠ op.id ∧ op.id ∉ x.body.deps) :
    Post (buildAbsent E n r reset false b op)
      (fun b' => ∃ rv', BuildInv E r base reset t expected (done ++ [op]) b' rv')
        (StrangerOnly E (rv.admitted t) op) := by
  unfold Irokle.buildAbsent
  dsimp only
  rw [if_neg (by simp)]
  split
  · rename_i hmissing
    have hdeps : ∀ d ∈ op.body.deps, ∃ x, rv.ops[d]? = some x := fun d => I.virtual.resolved_of_missing hmissing
    by_cases hpay : ∃ γ, op.body.payload = .genesis γ
    · obtain ⟨γ, hpay⟩ := hpay
      exact I.admitGenesis hvalid ht hpay hnew horder
    · push Not at hpay
      cases hst : b.state with
      | some st => exact hst ▸ I.admitOp hvalid ht hpay hnew hstored horder hdeps hst
      | none =>
        exact ((I.virtual.validateOpProjected_none hpay ht (I.noState hst).1).mono (fun _ h => h)
          fun e h => h.mono False.elim).bind fun _ h => h.elim
  · rename_i hmissing
    refine (validatePendingOp_post.mono (fun _ h => h) fun e h => h.mono False.elim).bind fun admission hdup => ?_
    cases admission with
    | duplicate =>
      refine Post.pure ⟨rv, I.skip (fun h => (I.noState h).2) (fun _ _ => I.branchProj) (fun hr => ?_)
        fun hgen => ?_⟩
      · rw [hstored (hdup rfl)] at hr
        cases hr
      · rw [missingDepsProjected_eq_empty hgen] at hmissing
        simp at hmissing
    | admitted => exact Post.pure ⟨rv, I.addPending hvalid hnew (Bool.eq_false_iff.2 hmissing)⟩

/-- The rest of `buildOp`, once the op itself is checked. -/
def buildStored (E : Env) (n : ℕ) (r : Records) (reset : Bool) (b : Build) (op : Op) : Result Build :=
  match if reset then StoredOp.absent else storedOpState r op with
  | .complete => if b.state.isNone then throw .admissionConflict else return b
  | .repair => buildAbsent E n r reset true b op
  | .absent => buildAbsent E n r reset false b op

/-- **Each op of a batch keeps the invariant.** It is refused as a stranger's only when the state of
its ancestry does not list its author. -/
theorem BuildInv.buildOp {verified : BTreeSet OpId} (R : RecordsOK E r)
    (I : BuildInv E r (r.base reset t) reset t expected done b rv) (hver : op.id ∈ verified → E.Valid op)
    (ht : op.body.topicId = t) (hfresh : ∀ x ∈ done, x.id ≠ op.id) (horder : ∀ x ∈ done, op.id ∉ x.body.deps) :
    Post (buildOp E n r reset verified b op)
      (fun b' => ∃ rv', BuildInv E r (r.base reset t) reset t expected (done ++ [op]) b' rv')
        (StrangerOnly E (rv.admitted t) op) := by
  have hnew : E.Valid op → (∀ x, (r.base reset t).ops[op.id]? ≠ some x) → rv.ops[op.id]? = none := by
    intro hvalid hbase
    cases h : rv.ops[op.id]? with
    | none => rfl
    | some x =>
      rcases I.grows.getElem?_ops.1 h with h | ⟨e, he, rfl, hid⟩
      · exact absurd h (hbase x)
      · exact absurd hid (hfresh e.1 (I.entries e he))
  have hrest : E.Valid op → Post (buildStored E n r reset b op)
      (fun b' => ∃ rv', BuildInv E r (r.base reset t) reset t expected (done ++ [op]) b' rv')
      (StrangerOnly E (rv.admitted t) op) := by
    intro hvalid
    unfold buildStored
    cases hreset : reset with
    | true =>
      subst hreset
      simp only [if_true]
      refine I.buildAbsent hvalid ht (hnew hvalid fun x hx => ?_) (fun _ => rfl) fun x hx =>
        ⟨hfresh x hx, horder x hx⟩
      obtain ⟨hx, hne⟩ := R.getElem?_resetTopic.1 hx
      exact hne (R.eq_of_valid hx hvalid ▸ ht)
    | false =>
      subst hreset
      rw [if_neg (by simp), R.storedOpState_eq]
      by_cases hc : r.ops.contains op.id
      · rw [if_pos hc]
        dsimp only
        split
        · exact Post.throw trivial
        · rw [contains_eq_isSome_getElem?, Option.isSome_iff_exists] at hc
          obtain ⟨x, hx⟩ := hc
          have hheld : ∃ x, rv.ops[op.id]? = some x := ⟨x, I.grows.getElem?_ops.2 (Or.inl hx)⟩
          exact Post.pure ⟨rv, I.skip (fun h => (I.noState h).2) (fun _ _ => I.branchProj) (fun _ => Or.inl hheld)
            fun _ => hheld⟩
      · rw [if_neg hc]
        have habsent : ∀ x, r.ops[op.id]? ≠ some x := by
          intro x hx
          exact hc (by rw [contains_eq_isSome_getElem?, hx]; rfl)
        refine I.buildAbsent hvalid ht (hnew hvalid habsent) (fun h => ?_) fun x hx => ⟨hfresh x hx, horder x hx⟩
        obtain ⟨x, hx⟩ := R.depResolvable_iff.1 h
        exact absurd hx (habsent x)
  unfold Irokle.buildOp
  refine (validateFrame_post.mono (fun _ h => h) fun e h => by rw [h]; trivial).bind fun _ _ => ?_
  · dsimp only
    split
    · exact (validate_post.mono (fun _ h => h) fun e h => h.mono False.elim).bind fun _ hvalid => hrest hvalid
    · rename_i hin
      exact hrest (hver (not_not.1 hin))

end Irokle
