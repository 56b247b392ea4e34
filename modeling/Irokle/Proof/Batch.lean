import Irokle.Proof.Commit
import Irokle.Proof.Topology

/-!
# A built batch

`build_batch` starts from the stored topic and the cached projections of its branch, and takes the
ops in dependency order. What it returns is a batch on these records (`Batched`), and the ops that
are left wait for what is missing.

* `CacheOK` — each cached projection is the state at the op it is stored under;
* `buildFold_post` — the invariant of the batch after any prefix of the order;
* `buildBatch_post` — what a built batch commits and buffers.
-/

namespace Irokle

open Std Outcome Causal

variable {E : Env} {V : View} {n : ℕ} {r rv : Records} {reset : Bool} {t : TopicId} {g x y op : Op}
  {γ : TopicGenesis} {ps : Projections} {st : TopicState} {cache : MembershipCache}
  {ops out done : List Op} {b : Build} {verified : BTreeSet OpId} {source : Option PeerId}
  {effects : Option ReceiveEffects}

/-- Each projection is the state at the op it is stored under, on the branch of some valid genesis. -/
def ProjectionsOK (E : Env) (ps : Projections) : Prop :=
  ∀ (id : OpId) st, ps[id]? = some st → ∃ g γ y, E.Valid g ∧ g.body.payload = .genesis γ ∧ E.Valid y ∧ y.id = id ∧
    StateOf (insert y (E.past y)) g γ st

/-- The cached projections are the states at the ops they are stored under. -/
abbrev CacheOK (E : Env) (cache : MembershipCache) : Prop := ProjectionsOK E cache.states

/-- The projections of a branch are projections. -/
theorem BranchProj.projectionsOK (hg : E.Valid g) (hpay : g.body.payload = .genesis γ) (h : BranchProj E g γ ps) :
    ProjectionsOK E ps := by
  intro id st hst
  obtain ⟨y, hy, hid, hstate⟩ := h id st hst
  exact ⟨g, γ, y, hg, hpay, hy, hid, hstate⟩

/-- The cached projections with the genesis of a branch belong to that branch. -/
theorem CacheOK.branch (hC : CacheOK E cache) (B : Branch E g γ (r.admitted t))
    (hst : StateOf (r.admitted t) g γ st) :
    BranchProj E g γ (cache.branch t (some st)) := by
  intro id st' h
  unfold MembershipCache.branch at h
  rw [ExtTreeMap.getElem?_filter', Option.filter_eq_some_iff] at h
  obtain ⟨hin, hmatch⟩ := h
  obtain ⟨-, hgen⟩ := of_decide_eq_true hmatch
  obtain ⟨g', γ', y, hg', hpay', hy, hid, hstate⟩ := hC id st' hin
  have hgg : g' = g := hg'.eq_of_id (B.valid B.root) (by rw [← hstate.genesis, hgen, hst.genesis])
  subst hgg
  have hγ := hpay'
  rw [B.payload] at hγ
  cases hγ
  exact ⟨y, hy, hid, hstate⟩

/-- The state a batch starts from. -/
def Records.expected (r : Records) (reset : Bool) (t : TopicId) : Option TopicState :=
  if reset then none else r.topicState t

theorem RecordsOK.expected_eq (R : RecordsOK E r) : r.expected reset t = (r.base reset t).topicState t := by
  cases reset with
  | false => rfl
  | true =>
    obtain ⟨-, -, -, -, hstate, -⟩ := R.reads_resetTopic (t := t) t
    simpa [Records.expected, Records.base] using hstate.symm

theorem RecordsOK.headsOf_eq_empty (R : RecordsOK E r) (h : r.topicState t = none) : r.headsOf t = ∅ := by
  refine ExtTreeSet.eq_empty_iff_forall_not_mem.2 fun id hid => ?_
  obtain ⟨op, hop, -⟩ := (R.heads t id).1 hid
  have := hop.1
  rw [R.noState t h] at this
  exact this

theorem RecordsOK.expectedHeads_eq (R : RecordsOK E r) :
    ((r.topicState t).map (·.heads)).getD ∅ = r.headsOf t := by
  cases h : r.topicState t with
  | none => exact (R.headsOf_eq_empty h).symm
  | some st =>
    unfold Records.topicState at h
    obtain ⟨st', -, rfl⟩ := Option.map_eq_some_iff.1 h
    rfl

/-- The batch before its first op. -/
theorem RecordsOK.buildStart (R : RecordsOK E r) (hC : CacheOK E cache) (reset : Bool) (t : TopicId) :
    BuildInv E r (r.base reset t) reset t (r.expected reset t) []
      (Build.start (r.expected reset t) (cache.branch t (r.expected reset t))) (r.base reset t) where
  virtual := R.virtual reset t
  grows := .nil
  heads := by
    change ((r.expected reset t).map (·.heads)).getD ∅ = _
    rw [R.expected_eq, (R.base reset t).expectedHeads_eq]
  noState h := by
    change r.expected reset t = none at h
    refine ⟨(R.base reset t).noState t (R.expected_eq ▸ h), ?_⟩
    change cache.branch t (r.expected reset t) = ∅
    rw [h]
    refine ExtTreeMap.ext_getElem? fun k : OpId => ?_
    simp [MembershipCache.branch]
  state st h := by
    change r.expected reset t = some st at h
    obtain ⟨g, γ, B, hst⟩ := (R.base reset t).state t st (R.expected_eq ▸ h)
    refine ⟨g, γ, B, hst, ?_⟩
    change BranchProj E g γ (cache.branch t (r.expected reset t))
    rw [h]
    exact hC.branch B hst
  unchanged _ := rfl
  changed h := by cases h
  entries := by simp [Build.start]
  overlay := by simp [Build.start]
  accepted := by simp [Build.start]
  pending := by simp [Build.start]
  waiting := by simp [Build.start]
  handled := by simp
  genesis := by simp

/-- **The invariant of a batch after any prefix of the order.** -/
theorem buildFold_post (R : RecordsOK E r) (hC : CacheOK E cache) (O : Ordered ops out) (hpre : done <+: out)
    (htopic : ∀ op ∈ out, op.body.topicId = t) (hver : ∀ op ∈ out, op.id ∈ verified → E.Valid op) :
    Post (done.foldlM (buildOp E n r reset verified)
        (Build.start (r.expected reset t) (cache.branch t (r.expected reset t))))
      (fun b => ∃ rv, BuildInv E r (r.base reset t) reset t (r.expected reset t) done b rv)
        (Error.Refuses True) := by
  obtain ⟨rest, rfl⟩ := hpre
  refine Post.foldlM (fun l b => ∃ rv, BuildInv E r (r.base reset t) reset t (r.expected reset t) l b rv)
    ⟨_, R.buildStart hC reset t⟩ ?_
  rintro l op after b rfl ⟨rv, I⟩
  rw [List.append_assoc, List.cons_append] at O htopic hver
  have hop : op ∈ l ++ op :: (after ++ rest) := by simp
  exact (I.buildOp R (hver op hop) (htopic op hop) O.fresh O.not_dep).mono (fun _ h => h) fun e h => h.mono
    fun _ => trivial

/-- The state of the batch is the one its records read. -/
theorem BuildInv.topicState_eq {base : Records} {expected : Option TopicState}
    (I : BuildInv E r base reset t expected done b rv) :
    rv.topicState t = b.state.map fun st => { st with heads := b.heads } := by
  have hheads : ∀ st, rv.topicState t = some st → st.heads = b.heads := by
    intro st h
    unfold Records.topicState at h
    obtain ⟨st', -, rfl⟩ := Option.map_eq_some_iff.1 h
    exact I.heads.symm
  cases hb : b.state with
  | none =>
    cases hrv : rv.topicState t with
    | none => rfl
    | some st =>
      obtain ⟨g, γ, B, -⟩ := I.virtual.ok.state t st hrv
      have := B.root
      rw [(I.noState hb).1] at this
      exact this.elim
  | some st =>
    obtain ⟨g, γ, B, hst, -⟩ := I.state st hb
    cases hrv : rv.topicState t with
    | none =>
      have := B.root
      rw [I.virtual.ok.noState t hrv] at this
      exact this.elim
    | some st' =>
      obtain ⟨g', γ', B', hst'⟩ := I.virtual.ok.state t st' hrv
      obtain ⟨rfl, rfl⟩ := B.root_unique B' subset_rfl
      rw [Option.map_some, ← hst.ext B.injOn hst', hheads st' hrv]

/-- A finished build is a batch on the base records. -/
theorem BuildInv.batched {base : Records} {expected : Option TopicState}
    (I : BuildInv E r base reset t expected done b rv) (hbase : RecordsOK E base)
    (hexpected : expected = base.topicState t) (effects : AdmissionEffects) :
    Batched E base t
      { topicId := t
        expectedHeads := (expected.map (·.heads)).getD ∅
        expectedTopicState := expected
        entries := b.entries
        heads := b.heads
        topicState := if b.stateChanged then b.state.map fun st => { st with heads := b.heads } else none
        effects := effects } rv where
  topicId := rfl
  grows := I.grows
  heads := I.heads
  expectedHeads := by
    rw [hexpected]
    exact hbase.expectedHeads_eq
  expectedState := hexpected
  newState st h := by
    dsimp only at h
    split at h
    · obtain ⟨st', hst', rfl⟩ := Option.map_eq_some_iff.1 h
      obtain ⟨g, γ, B, hstate, -⟩ := I.state st' hst'
      exact ⟨hstate.topicId.trans B.root_topic, rfl⟩
    · cases h
  state := by
    rw [I.topicState_eq]
    dsimp only
    split
    · rename_i hchanged
      obtain ⟨st, hst⟩ := Option.ne_none_iff_exists'.1 (I.changed hchanged)
      simp [hst]
    · rename_i hchanged
      rw [I.unchanged (Bool.eq_false_iff.2 hchanged), hexpected]
      simp

/-- What a built batch commits and buffers; `rv` are the records once it is committed. -/
structure Built (E : Env) (r : Records) (reset : Bool) (ops : List Op) (built : BuiltBatch) (t : TopicId)
    (rv : Records) : Prop where
  topic : ∀ op ∈ ops, op.body.topicId = t
  batched : Batched E (r.base reset t) t built.batch rv
  entries : ∀ e ∈ built.batch.entries, e.1 ∈ ops
  accepted : ∀ id, id ∈ built.accepted ↔ ∃ e ∈ built.batch.entries, e.1.id = id
  pending : ∀ e ∈ built.pending, e.1 ∈ ops ∧ E.Valid e.1 ∧ e.2 ≠ ∅ ∧ (∀ d ∈ e.2, d ∈ e.1.body.deps) ∧
    (reset = false → ∀ d ∈ e.1.body.deps, d ∈ e.2 ↔ rv.ops[d]? = none)
  waiting : ∀ e ∈ built.pending, rv.ops[e.1.id]? = none
  handled : reset = false → ∀ op ∈ ops, (∃ x, rv.ops[op.id]? = some x) ∨ ∃ e ∈ built.pending, e.1.id = op.id
  genesis : ∀ op ∈ ops, isStructuralGenesis op = true → ∃ x, rv.ops[op.id]? = some x
  projections : ProjectionsOK E built.projections

/-- The missing dependencies of an op are those that are not held. -/
theorem BuildInv.mem_missing {expected : Option TopicState} {d : OpId} (R : RecordsOK E r)
    (I : BuildInv E r r false t expected done b rv) (hd : d ∈ op.body.deps) :
    d ∈ missingDepsProjected r b.overlay op false ↔ rv.ops[d]? = none := by
  have hheld : (∃ x, rv.ops[d]? = some x) ↔ b.overlay.ops.contains d = true ∨ r.depResolvable d = true := by
    rw [R.depResolvable_iff, I.overlay]
    constructor
    · rintro ⟨x, hx⟩
      rcases I.grows.getElem?_ops.1 hx with hx | ⟨e, he, rfl, hid⟩
      · exact Or.inr ⟨x, hx⟩
      · exact Or.inl ⟨e, he, hid⟩
    · rintro (⟨e, he, hid⟩ | ⟨x, hx⟩)
      · exact ⟨e.1, I.grows.getElem?_ops.2 (Or.inr ⟨e, he, rfl, hid⟩)⟩
      · exact ⟨x, I.grows.getElem?_ops.2 (Or.inl hx)⟩
  have hnone : rv.ops[d]? = none ↔ ¬∃ x, rv.ops[d]? = some x := by
    cases rv.ops[d]? <;> simp
  rw [hnone, hheld, not_or, Bool.not_eq_true, Bool.not_eq_true]
  unfold missingDepsProjected
  rw [ExtTreeSet.mem_filter]
  simp only [hd, Bool.false_or, Bool.and_eq_true, Bool.not_eq_true', exists_true_left, ExtTreeSet.get_eq]

/-- What an effects computation may fail with: it reports no commit. -/
def EffectsOK (effects : Option ReceiveEffects) : Prop :=
  ∀ compute, effects = some compute → ∀ source entries state e, compute source entries state = .error e →
    e.Refuses True

/-- The batch of a finished build, with no obligations unless an effects computation adds them. -/
theorem BuildInv.finish_post (R : RecordsOK E r)
    (I : BuildInv E r (r.base reset t) reset t (r.expected reset t) done b rv) (heff : EffectsOK effects) :
    Post (b.finish t (r.expected reset t) source effects)
      (fun batch => Batched E (r.base reset t) t batch rv ∧ batch.entries = b.entries ∧
        (effects = none → batch.effects.syncObligations = [])) (Error.Refuses True) := by
  unfold Build.finish
  dsimp only
  split
  · rename_i compute st hst
    split
    · exact Post.pure ⟨I.batched (R.base reset t) R.expected_eq _, rfl, fun h => by cases h⟩
    · refine (Post.intro (P := fun _ => True) (fun _ _ => trivial) (heff compute rfl _ _ _)).bind fun eff _ => ?_
      exact Post.pure ⟨I.batched (R.base reset t) R.expected_eq _, rfl, fun h => by cases h⟩
  · exact Post.pure ⟨I.batched (R.base reset t) R.expected_eq _, rfl, fun _ => rfl⟩

/-- **What `build_batch` returns.** -/
theorem buildBatch_post (R : RecordsOK E r) (hC : CacheOK E cache) (hvalid : ∀ op ∈ ops, E.Valid op)
    (heff : EffectsOK effects) :
    Post (buildBatch E V n r cache source ops verified reset effects)
      (fun res => match res with
        | none => ops = []
        | some built => (∃ t rv, Built E r reset ops built t rv) ∧
          (effects = none → built.batch.effects.syncObligations = [])) (Error.Refuses True) := by
  have horder : Post (topologicalOps ops) (Ordered ops) (Error.Refuses True) := by
    refine Post.intro (fun out h => topologicalOps_ordered h) fun e h => ?_
    obtain ⟨out, -, -, heq⟩ := topologicalOps_out ops
    rw [heq] at h
    split at h <;> cases h
    trivial
  unfold buildBatch
  refine horder.bind fun out O => ?_
  cases hhead : out.head? with
  | none =>
    refine Post.pure (List.eq_nil_iff_forall_not_mem.2 fun op hop => ?_)
    obtain ⟨x, hx, -⟩ := O.all op hop
    rw [List.head?_eq_none_iff.1 hhead] at hx
    simp at hx
  | some first =>
    dsimp only
    refine refuseIf_bind (fun _ => trivial) fun hany => refuseIf_bind (fun _ => trivial) fun _ => ?_
    have htopic : ∀ op ∈ out, op.body.topicId = first.body.topicId := by
      intro op hop
      by_contra hne
      exact hany (List.any_eq_true.2 ⟨op, hop, by simpa using hne⟩)
    -- ops with one id are equal, so the order lists every op
    have hmem : ∀ op ∈ ops, op ∈ out := by
      intro op hop
      obtain ⟨x, hx, hid⟩ := O.all op hop
      rwa [← (hvalid x (O.mem x hx)).eq_of_id (hvalid op hop) hid]
    refine (buildFold_post R hC O (List.prefix_refl out) htopic fun op hop _ => hvalid op (O.mem op hop)).bind ?_
    rintro b ⟨rv, I⟩
    refine (I.finish_post R heff).bind ?_
    rintro batch ⟨hbatch, hentries, hnone⟩
    refine Post.pure ⟨⟨first.body.topicId, rv, fun op hop => htopic op (hmem op hop), hbatch, ?_, ?_, ?_,
      I.waiting, ?_, ?_, ?_⟩, hnone⟩
    · intro e he
      exact O.mem e.1 (I.entries e (hentries ▸ he))
    · intro id
      change id ∈ b.accepted ↔ ∃ e ∈ batch.entries, _
      rw [I.accepted, hentries]
    · intro e he
      obtain ⟨hin, hv, hne, heq⟩ := I.pending e he
      refine ⟨O.mem e.1 hin, hv, hne, fun d hd => ?_, ?_⟩
      · rw [heq] at hd
        exact (ExtTreeSet.mem_filter.1 hd).1
      · rintro rfl d hd
        rw [heq]
        exact I.mem_missing R hd
    · intro hr op hop
      exact (I.handled hr op (hmem op hop)).imp_right fun ⟨e, he, h⟩ => ⟨e, he, congrArg Op.id h⟩
    · intro op hop
      exact I.genesis op (hmem op hop)
    · change ProjectionsOK E b.projections
      cases hst : b.state with
      | none =>
        rw [(I.noState hst).2]
        intro id st h
        simp at h
      | some st =>
        obtain ⟨g, γ, B, -, hps⟩ := I.state st hst
        exact hps.projectionsOK (B.valid B.root) B.payload

end Irokle
