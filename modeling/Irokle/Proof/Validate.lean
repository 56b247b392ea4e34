import Irokle.Proof.Walk

/-!
# Validation decides whether an op fits

The checks on an op read the store through the overlay of the batch. `Virtual` relates these reads
to the records the store would have with the batch so far; `Fits` says that an op extends the branch
of those records.

* `authorIsMember_post` — each of the three ways to consult a member set gives the state of the
  op's ancestry;
* `validateOpProjected_post` — an op is admitted exactly when it fits.
-/

namespace Irokle

open Std Outcome Causal List ExtTreeSet

/-- Reads through the overlay are reads of the records `rv`, as far as the topic `t` goes. -/
structure Virtual (E : Env) (r : Records) (o : Overlay) (reset : Bool) (t : TopicId) (rv : Records) : Prop where
  ok : RecordsOK E rv
  metas : ∀ (id : OpId) op, rv.ops[id]? = some op → o.metas[id]?.or r.metas[id]? = rv.metas[id]?
  ops : ∀ (id : OpId) op, rv.ops[id]? = some op → o.ops[id]?.or r.ops[id]? = some op
  tips : ∀ a : ActorId, o.tips[(t, a)]?.or (if reset then none else r.actorTip[(t, a)]?) = rv.actorTip[(t, a)]?
  index : ∀ (a : ActorId) (s : ℕ),
    (if reset then none else r.actorBySeq[(t, a, s)]?).or o.index[(t, a, s)]? = rv.actorBySeq[(t, a, s)]?
  resolved : ∀ id, o.ops.contains id = true ∨ reset = false ∧ r.depResolvable id = true →
    ∃ op, rv.ops[id]? = some op
  present : ∀ (id : OpId) op, rv.ops[id]? = some op → op.body.topicId = t →
    o.ops.contains id = true ∨ reset = false ∧ r.depResolvable id = true

/-- The state of the op's ancestry, which is held, does not list its author. -/
structure Stranger (E : Env) (g : Op) (γ : TopicGenesis) (S : Set Op) (op : Op) : Prop where
  valid : E.Valid op
  deps : ∀ d ∈ op.body.deps, ∃ x ∈ S, x.id = d
  nonempty : op.body.deps ≠ ∅
  state : ∃ st, StateOf (E.past op) g γ st ∧ op.body.author ∉ st.members

/-- The op extends the branch `S` of the genesis `g`. -/
structure Fits (E : Env) (g : Op) (γ : TopicGenesis) (S : Set Op) (op : Op) : Prop where
  links : Links E S op
  authored : Authored E g γ op
  free : ∀ x ∈ S, x.body.actorId = op.body.actorId → x.body.actorSeq ≠ op.body.actorSeq

variable {E : Env} {n : ℕ} {r rv : Records} {o : Overlay} {reset : Bool} {t : TopicId} {g x y op : Op}
  {γ : TopicGenesis} {ps : Projections} {m : OpMeta} {id : OpId} {st : TopicState}

theorem checkedNext_post {k : ℕ} :
    Post (checkedNext k) (fun m => m = k + 1 ∧ k + 1 < u64Size) fun e => e = .invalidOpId ∧ u64Size ≤ k + 1 := by
  unfold checkedNext checkedSucc
  by_cases h : k + 1 < u64Size
  · rw [if_pos h]
    exact ⟨rfl, h⟩
  · rw [if_neg h]
    exact ⟨rfl, by omega⟩

/-- `pos` is the position after the last op of the actor `a` in `S`. -/
def NextPosition (S : Set Op) (a : ActorId) (pos : ℕ × Option OpId) : Prop :=
  pos = (1, none) ∧ (∀ x ∈ S, x.body.actorId ≠ a) ∨
    ∃ x ∈ S, x.body.actorId = a ∧ pos = (x.body.actorSeq + 1, some x.id) ∧
      ∀ y ∈ S, y.body.actorId = a → y.body.actorSeq ≤ x.body.actorSeq

/-- The clock a held op observed. -/
def Records.clockAt (r : Records) (x : Op) : ActorClock := (r.metas[x.id]?.map (·.observedClock)).getD ∅

theorem RecordsOK.clockAt_exact (R : RecordsOK E r) (hx : r.ops[x.id]? = some x) :
    (r.clockAt x).Positive ∧ opShape.Exact {x | E.Valid x} x (r.clockAt x).get := by
  obtain ⟨m, hm, hok⟩ := R.hasMeta x.id x hx
  unfold Records.clockAt
  rw [hm]
  exact ⟨hok.positive, hok.exact⟩

/-- `clk` is the join of the clocks of the ops named by `l`, all of the topic `t`, and of their own
positions. -/
structure Joins (r : Records) (t : TopicId) (l : List OpId) (clk : ActorClock) : Prop where
  mem : ∀ d ∈ l, ∃ x ∈ r.admitted t, x.id = d
  positive : clk.Positive
  le_get : ∀ a s, 1 ≤ s → (s ≤ clk.get a ↔ ∃ x ∈ r.admitted t, x.id ∈ l ∧
    (s ≤ (r.clockAt x).get a ∨ x.body.actorId = a ∧ s ≤ x.body.actorSeq))

/-- The check of its author that `validatePayload` makes of an op other than a genesis. -/
def checkMember (E : Env) (n : ℕ) (r : Records) (o : Overlay) (heads : BTreeSet OpId) (st : TopicState)
    (ps : Projections) (op : Op) : Result Projections := do
  let (isMember, projections) ← authorIsMember E n r o heads st ps op
  refuseIf (isMember = false) .notTopicMember
  return projections

namespace Virtual

variable (V : Virtual E r o reset t rv)

include V

theorem metaProjected_ok (h : rv.ops[id]? = some op) :
    ∃ m, metaProjected r o id = .ok m ∧ rv.metas[id]? = some m ∧ MetaOK E op m := by
  obtain ⟨m, hm, hok⟩ := V.ok.hasMeta id op h
  refine ⟨m, ?_, hm, hok⟩
  unfold metaProjected
  rw [V.metas id op h, hm]

theorem sees (B : Branch E g γ (rv.admitted t)) : Sees E r o g γ (rv.admitted t) where
  branch := B
  metas x hx := by
    obtain ⟨m, hm, -, hok⟩ := V.metaProjected_ok hx.1
    exact ⟨m, hm, hok⟩
  ops x hx := by
    unfold opProjected
    rw [V.ops x.id x hx.1]

/-- An op with no missing dependency has all of them in the records. -/
theorem resolved_of_missing (h : (missingDepsProjected r o op reset).isEmpty = true) {d : OpId}
    (hd : d ∈ op.body.deps) : ∃ x, rv.ops[d]? = some x := by
  refine V.resolved d ?_
  by_contra hno
  push Not at hno
  have hmem : d ∈ missingDepsProjected r o op reset := by
    unfold missingDepsProjected
    rw [ExtTreeSet.mem_filter]
    refine ⟨hd, ?_⟩
    cases hreset : reset with
    | false => simp [Bool.eq_false_iff.2 hno.1, Bool.eq_false_iff.2 (hno.2 hreset)]
    | true => simp [Bool.eq_false_iff.2 hno.1]
  exact BTreeSet.ne_empty_of_mem hmem (by simpa using h)

/-- The clock joined from dependencies that are all held, which fails when one of them belongs to
another topic. -/
theorem observedClock_post {l : List OpId} (hl : ∀ d ∈ l, ∃ x, rv.ops[d]? = some x) :
    Post (observedClockProjected r o t l) (Joins rv t l)
      (fun e => e = .topicMismatch ∧ ∃ d ∈ l, ∀ x ∈ rv.admitted t, x.id ≠ d) := by
  unfold observedClockProjected
  refine Post.foldlM (Joins rv t) ?_ ?_
  · refine ⟨by simp, ActorClock.Positive.empty, fun a s hs => ?_⟩
    rw [ActorClock.get_empty]
    simp
    omega
  · rintro done d rest clk hsplit ⟨hdone, hpos, hjoin⟩
    obtain ⟨x, hx⟩ := hl d (by simp [hsplit])
    obtain ⟨m, hm, hrm, hok⟩ := V.metaProjected_ok hx
    have hid := V.ok.opId d x hx
    have hclk : rv.clockAt x = m.observedClock := by
      rw [Records.clockAt, hid, hrm]
      rfl
    rw [hm, ok_bind]
    refine refuseIf_bind (fun hne => ⟨rfl, d, by simp [hsplit], ?_⟩) fun htopic => Post.pure ?_
    · rintro y hy rfl
      have hyx := hy.1
      rw [hx] at hyx
      cases hyx
      exact hne (hok.topicId_eq.trans hy.2)
    · have hmem : x ∈ rv.admitted t := ⟨hid ▸ hx, hok.topicId_eq ▸ not_not.1 htopic⟩
      have hseq : 1 ≤ m.actorSeq := hok.actorSeq_eq ▸ (V.ok.chained t x hmem).1
      refine ⟨?_, (hpos.merge hok.positive).observe hseq, fun a s hs => ?_⟩
      · intro d' hd'
        rcases mem_append.1 hd' with hd' | hd'
        · exact hdone d' hd'
        · rw [mem_singleton.1 hd']
          exact ⟨x, hmem, hid⟩
      · rw [ActorClock.le_get_observe, ActorClock.le_get_merge hs, hjoin a s hs, hok.actorId_eq, hok.actorSeq_eq,
          ← hclk]
        constructor
        · rintro ((⟨y, hy, hyd, h⟩ | h) | h)
          · exact ⟨y, hy, mem_append_left _ hyd, h⟩
          · exact ⟨x, hmem, by simp [hid], Or.inl h⟩
          · exact ⟨x, hmem, by simp [hid], Or.inr h⟩
        · rintro ⟨y, hy, hyd, h⟩
          rcases mem_append.1 hyd with hyd | hyd
          · exact Or.inl (Or.inl ⟨y, hy, hyd, h⟩)
          · have hyx := hy.1
            rw [mem_singleton.1 hyd, hx] at hyx
            cases hyx
            exact h.elim (fun h => Or.inl (Or.inr h)) Or.inr

/-- The joined clock counts exactly what lies below the dependencies. -/
theorem observedClock_covers (B : Branch E g γ (rv.admitted t)) {deps : BTreeSet OpId}
    (hdeps : ∀ d ∈ deps, ∃ x, rv.ops[d]? = some x) :
    Post (observedClockProjected r o t deps.toList)
      (fun (clk : ActorClock) => (∀ d ∈ deps, ∃ x ∈ rv.admitted t, x.id = d) ∧ clk.Positive ∧
        ∀ a s, 1 ≤ s → (s ≤ clk.get a ↔ ∃ x ∈ E.below deps, x.body.actorId = a ∧ x.body.actorSeq = s))
      (fun e => e = .topicMismatch ∧ ∃ d ∈ deps, ∀ x ∈ rv.admitted t, x.id ≠ d) := by
  refine (V.observedClock_post fun d hd => hdeps d (by simpa using hd)).mono ?_ ?_
  · rintro clk ⟨hmem, hpos, hjoin⟩
    have hmem' : ∀ d ∈ deps, ∃ x ∈ rv.admitted t, x.id = d := fun d hd => hmem d (by simpa using hd)
    refine ⟨hmem', hpos, fun a s hs => ?_⟩
    refine B.covers_of_join hmem' (fun x hx _ => (V.ok.clockAt_exact hx.1).2) (fun a s hs => ?_) hs
    simpa using hjoin a s hs
  · rintro e ⟨he, d, hd, hno⟩
    exact ⟨he, d, by simpa using hd, hno⟩

/-! ## The member set an op is checked against -/

/-- A state whose winning controls the op observed is the state of the op's ancestry. -/
theorem coversControls_post (B : Branch E g γ (rv.admitted t)) (hst : StateOf (rv.admitted t) g γ st)
    (ht : op.body.topicId = t) (hdeps : ∀ d ∈ op.body.deps, ∃ x, rv.ops[d]? = some x) :
    Post (coversControls r o op st)
      (fun covered => (∀ d ∈ op.body.deps, ∃ x ∈ rv.admitted t, x.id = d) ∧
        (covered = true → op.body.deps ≠ ∅ ∧ StateOf (E.below op.body.deps) g γ st))
      (fun e => e = .topicMismatch ∧ ∃ d ∈ op.body.deps, ∀ x ∈ rv.admitted t, x.id ≠ d) := by
  unfold coversControls
  split
  · rename_i hempty
    have h0 : op.body.deps = ∅ := by simpa using hempty
    exact Post.ok ⟨by simp [h0], by simp⟩
  · rename_i hempty
    rw [ht]
    refine (V.observedClock_covers B hdeps).bind fun clk ⟨hmem, _, hclk⟩ => Post.pure ⟨hmem, fun hall => ?_⟩
    have hne : op.body.deps ≠ ∅ := by simpa using hempty
    have hsub := B.below_subset hmem
    rw [all_eq_true] at hall
    -- the observed clock covers a winning control only when it is an ancestor
    have anc : ∀ x ∈ rv.admitted t, x.body.actorSeq ≤ clk.get x.body.actorId → x ∈ E.below op.body.deps := by
      intro x hx hle
      obtain ⟨w, hw, ha, hs⟩ := (hclk _ _ (B.links x hx).one_le_seq).1 hle
      rwa [← B.slots w (hsub hw) x hx ha hs]
    refine ⟨hne, hst.of_subset hsub ?_ ?_⟩
    · intro p e he
      obtain ⟨x, hx, hkey, hpay⟩ := (hst.controls p).mem e he
      refine ⟨x, anc x hx ?_, hkey, hpay⟩
      have hin : e.1 ∈ st.membershipControls.toList.map (·.2.1) ++
          (st.replicationPolicyControl.map (·.1)).toList := by
        refine mem_append_left _ (mem_map.2 ⟨(p, e), ?_, rfl⟩)
        exact ExtTreeMap.mem_toList_iff_getElem?_eq_some.2 he
      have := of_decide_eq_true (hall _ hin)
      rwa [hkey] at this
    · intro e he
      obtain ⟨x, hx, hkey, hpay⟩ := hst.policyControl.mem e he
      refine ⟨x, anc x hx ?_, hkey, hpay⟩
      have hin : e.1 ∈ st.membershipControls.toList.map (·.2.1) ++
          (st.replicationPolicyControl.map (·.1)).toList := by
        rw [he]
        exact mem_append_right _ (by simp)
      have := of_decide_eq_true (hall _ hin)
      rwa [hkey] at this

/-- An op on the heads has the whole branch below it. -/
theorem below_eq_of_deps_heads (B : Branch E g γ (rv.admitted t)) (hheads : op.body.deps = rv.headsOf t) :
    E.below op.body.deps = rv.admitted t :=
  B.below_eq_of_heads (V.ok.finite t) fun d => by rw [hheads]; exact V.ok.heads t d

/-- **Each way to consult a member set answers for the state of the op's ancestry.** -/
theorem authorIsMember_post (B : Branch E g γ (rv.admitted t)) (hst : StateOf (rv.admitted t) g γ st)
    (hps : BranchProj E g γ ps) (ht : op.body.topicId = t)
    (hdeps : ∀ d ∈ op.body.deps, ∃ x, rv.ops[d]? = some x) :
    Post (authorIsMember E n r o (rv.headsOf t) st ps op)
      (fun res => BranchProj E g γ res.2 ∧ (∀ d ∈ op.body.deps, ∃ x ∈ rv.admitted t, x.id = d) ∧
        op.body.deps ≠ ∅ ∧
        ∃ st', StateOf (E.below op.body.deps) g γ st' ∧ res.1 = decide (op.body.author ∈ st'.members))
      (fun e => E.FromFault e ∨ e = .topicNotFound ∧ op.body.deps = ∅ ∨
        e = .topicMismatch ∧ ∃ d ∈ op.body.deps, ∀ x ∈ rv.admitted t, x.id ≠ d) := by
  unfold authorIsMember
  dsimp only
  split
  · rename_i hheads
    have hall := V.below_eq_of_deps_heads B hheads
    refine Post.pure ⟨hps, fun d hd => ?_, ?_, st, hall ▸ hst, rfl⟩
    · obtain ⟨x, hx, hid⟩ := (V.ok.heads t d).1 (hheads ▸ hd)
      exact ⟨x, hx.1, hid⟩
    · intro h0
      have hg : g ∈ E.below op.body.deps := hall ▸ B.root
      obtain ⟨y, -, hy, -⟩ := hg
      simp [h0] at hy
  · refine ((V.coversControls_post B hst ht hdeps).mono (fun _ h => h) fun _ h => Or.inr (Or.inr h)).bind
      fun covered ⟨hmem, hcov⟩ => ?_
    split
    · rename_i hc
      exact Post.pure ⟨hps, hmem, (hcov hc).1, st, (hcov hc).2, rfl⟩
    · rw [ht.trans B.root_topic.symm]
      refine ((projectMembership_post (V.sees B) hps hmem).mono (fun _ h => h) fun e h => ?_).bind
        fun res ⟨hne, hstate, hps'⟩ => Post.pure ⟨hps', hmem, hne, res.1, hstate, rfl⟩
      exact h.imp_right Or.inl

theorem generationProjected_post {deps : BTreeSet OpId} (hmem : ∀ d ∈ deps, ∃ x ∈ rv.admitted t, x.id = d) :
    Post (generationProjected r o deps.toList)
      (fun G => (∀ x ∈ rv.admitted t, x.id ∈ deps → x.body.generation < G) ∧
        (G ≠ 0 → ∃ x ∈ rv.admitted t, x.id ∈ deps ∧ G = x.body.generation + 1) ∧ G < u64Size)
      (fun e => e = .invalidOpId ∧ ∃ x ∈ rv.admitted t, x.id ∈ deps ∧ u64Size ≤ x.body.generation + 1) := by
  have hfold : Post (generationProjected r o deps.toList)
      (fun G => (∀ x ∈ rv.admitted t, x.id ∈ deps.toList → x.body.generation < G) ∧
        (G ≠ 0 → ∃ x ∈ rv.admitted t, x.id ∈ deps.toList ∧ G = x.body.generation + 1) ∧ G < u64Size)
      (fun e => e = .invalidOpId ∧ ∃ x ∈ rv.admitted t, x.id ∈ deps.toList ∧
        u64Size ≤ x.body.generation + 1) := by
    unfold generationProjected
    refine Post.foldlM (fun done G => (∀ x ∈ rv.admitted t, x.id ∈ done → x.body.generation < G) ∧
      (G ≠ 0 → ∃ x ∈ rv.admitted t, x.id ∈ done ∧ G = x.body.generation + 1) ∧ G < u64Size)
      ⟨by simp, by simp, by simp [u64Size]⟩ ?_
    rintro done d rest G hsplit ⟨hlt, hex, hbound⟩
    obtain ⟨x, hx, rfl⟩ := hmem d (by rw [← mem_toList, hsplit]; simp)
    obtain ⟨m, hm, -, hok⟩ := V.metaProjected_ok hx.1
    rw [hm, ok_bind, hok.generation_eq]
    refine (checkedNext_post.mono (fun _ h => h) fun e he => ⟨he.1, x, hx, by simp [hsplit], he.2⟩).bind ?_
    rintro _ ⟨rfl, hb⟩
    refine Post.pure ⟨fun y hy hyd => ?_, fun hne => ?_, by omega⟩
    · rcases mem_append.1 hyd with hyd | hyd
      · have := hlt y hy hyd
        omega
      · obtain rfl : y = x := by
          have := hy.1
          rw [mem_singleton.1 hyd, hx.1] at this
          exact (Option.some.inj this).symm
        omega
    · rcases Nat.lt_or_ge (x.body.generation + 1) G with h | h
      · obtain ⟨y, hy, hyd, hG⟩ := hex (by omega)
        exact ⟨y, hy, mem_append_left _ hyd, by omega⟩
      · exact ⟨x, hx, by simp, by omega⟩
  simpa using hfold

/-- The position after the last op of an actor. -/
theorem nextActorPosition_post (a : ActorId) :
    Post (nextActorPosition rv.actorTip[(t, a)]?)
      (fun pos => pos.1 < u64Size ∧ NextPosition (rv.admitted t) a pos)
      (fun e => e = .invalidOpId ∧ ∃ x ∈ rv.admitted t, x.body.actorId = a ∧ u64Size ≤ x.body.actorSeq + 1 ∧
          ∀ y ∈ rv.admitted t, y.body.actorId = a → y.body.actorSeq ≤ x.body.actorSeq) := by
  cases htip : rv.actorTip[(t, a)]? with
  | none =>
    refine Post.ok ⟨by simp [u64Size], Or.inl ⟨rfl, fun x hx ha => ?_⟩⟩
    -- of the ops of one actor, one has the highest position
    obtain ⟨y, hy, hmax⟩ := Set.Finite.exists_maximalFor (fun x : Op => x.body.actorSeq)
      {x | x ∈ rv.admitted t ∧ x.body.actorId = a} ((V.ok.finite t).subset fun x hx => hx.1) ⟨x, hx, ha⟩
    have hsome := (V.ok.tips t a y.body.actorSeq y.id).2 ⟨⟨y, hy.1, rfl, hy.2, rfl⟩, fun z hz hza => by
      rcases Nat.le_total z.body.actorSeq y.body.actorSeq with h | h
      · exact h
      · exact hmax ⟨hz, hza⟩ h⟩
    rw [htip] at hsome
    cases hsome
  | some tip =>
    obtain ⟨s, id⟩ := tip
    obtain ⟨⟨x, hx, rfl, ha, rfl⟩, hmax⟩ := (V.ok.tips t a s id).1 htip
    refine (checkedNext_post.mono (fun _ h => h) fun e he => ⟨he.1, x, hx, ha, he.2, hmax⟩).bind ?_
    rintro _ ⟨rfl, hb⟩
    exact Post.pure ⟨hb, Or.inr ⟨x, hx, ha, rfl, hmax⟩⟩

end Virtual

/-! ## Admission -/

variable {S : Set Op} {pos : ℕ × Option OpId}

/-- A position up to the last op of an actor is taken. -/
theorem Branch.taken (B : Branch E g γ S) (hx : x ∈ S) {s : ℕ} (h1 : 1 ≤ s) (hle : s ≤ x.body.actorSeq) :
    ∃ y ∈ S, y.body.actorId = x.body.actorId ∧ y.body.actorSeq = s := by
  rcases Nat.lt_or_ge s x.body.actorSeq with hlt | hge
  · obtain ⟨y, hy, ha, hs⟩ := B.chained.down h1 hx hlt
    exact ⟨y, hy.mem_left, ha, hs⟩
  · exact ⟨x, hx, rfl, by omega⟩

/-- A fitting op takes the next position of its actor. -/
theorem Fits.position (B : Branch E g γ S) (F : Fits E g γ S op) (hpos : NextPosition S op.body.actorId pos) :
    op.body.actorSeq = pos.1 ∧ op.body.actorPrev = pos.2 := by
  rcases hpos with ⟨rfl, hnone⟩ | ⟨x, hx, ha, rfl, hmax⟩
  · cases hp : op.body.actorPrev with
    | none => exact ⟨F.links.first hp, rfl⟩
    | some p =>
      obtain ⟨-, y, hy, -, hya, -⟩ := F.links.next p hp
      exact absurd hya (hnone y hy)
  · have free : ∀ {s}, 1 ≤ s → s ≤ x.body.actorSeq → op.body.actorSeq ≠ s := by
      rintro s h1 hle rfl
      obtain ⟨y, hy, hya, hys⟩ := B.taken hx h1 hle
      exact F.free y hy (hya.trans ha) hys
    have h1 := (B.links x hx).one_le_seq
    cases hp : op.body.actorPrev with
    | none => exact absurd (F.links.first hp) (free le_rfl h1)
    | some p =>
      obtain ⟨-, y, hy, rfl, hya, hys⟩ := F.links.next p hp
      have hle := hmax y hy hya
      have hge : ¬y.body.actorSeq + 1 ≤ x.body.actorSeq := fun h => free (by omega) h hys.symm
      have hxy : y = x := B.slots y hy x hx (hya.trans ha.symm) (by omega)
      subst hxy
      exact ⟨hys.symm, rfl⟩

/-- The generation of a fitting op is the one its dependencies give. -/
theorem Fits.generation_eq (B : Branch E g γ S) (F : Fits E g γ S op) {G : ℕ}
    (hlt : ∀ x ∈ S, x.id ∈ op.body.deps → x.body.generation < G)
    (hex : G ≠ 0 → ∃ x ∈ S, x.id ∈ op.body.deps ∧ G = x.body.generation + 1) : op.body.generation = G := by
  refine Nat.le_antisymm ?_ ?_
  · rcases Nat.eq_zero_or_pos op.body.generation with h0 | h0
    · omega
    · obtain ⟨x, hx, hxd, heq⟩ := F.links.generation (by omega)
      have := hlt x hx hxd
      omega
  · rcases Nat.eq_zero_or_pos G with h0 | h0
    · omega
    · obtain ⟨x, hx, hxd, heq⟩ := hex (by omega)
      obtain ⟨x', hx', hid, hlt'⟩ := F.links.deps _ hxd
      obtain rfl := B.injOn hx' hx hid
      omega

/-- The next position of an actor is free. -/
theorem NextPosition.free (hpos : NextPosition S op.body.actorId pos) (hseq : op.body.actorSeq = pos.1) :
    ∀ x ∈ S, x.body.actorId = op.body.actorId → x.body.actorSeq ≠ op.body.actorSeq := by
  rcases hpos with ⟨rfl, hnone⟩ | ⟨x, hx, ha, rfl, hmax⟩
  · exact fun y hy hya => absurd hya (hnone y hy)
  · intro y hy hya
    have := hmax y hy hya
    change op.body.actorSeq = x.body.actorSeq + 1 at hseq
    omega

/-- An op at the next position of its actor, one generation above its dependencies, is linked. -/
theorem links_of_position (hvalid : E.Valid op)
    (hactor : op.body.actorId = E.actorIdFor op.body.topicId op.body.author)
    (hmem : ∀ d ∈ op.body.deps, ∃ x ∈ S, x.id = d) (hprev : ∀ p, op.body.actorPrev = some p → p ∈ op.body.deps)
    (hpos : NextPosition S op.body.actorId pos) (hseq : op.body.actorSeq = pos.1) (hp : op.body.actorPrev = pos.2)
    (hbound : pos.1 < u64Size) (hlt : ∀ x ∈ S, x.id ∈ op.body.deps → x.body.generation < op.body.generation)
    (hgen : op.body.generation ≠ 0 → ∃ x ∈ S, x.id ∈ op.body.deps ∧ op.body.generation = x.body.generation + 1)
    (hgb : op.body.generation < u64Size) : Links E S op where
  valid := hvalid
  actor := hactor
  deps d hd := by
    obtain ⟨x, hx, rfl⟩ := hmem d hd
    exact ⟨x, hx, rfl, hlt x hx hd⟩
  generation := hgen
  first h := by
    rcases hpos with ⟨rfl, -⟩ | ⟨x, -, -, rfl, -⟩
    · exact hseq
    · rw [h] at hp
      cases hp
  next p h := by
    rcases hpos with ⟨rfl, -⟩ | ⟨x, hx, ha, rfl, -⟩
    · rw [h] at hp
      cases hp
    · rw [h] at hp
      cases hp
      exact ⟨hprev _ h, x, hx, rfl, ha, hseq.symm⟩
  bounded := ⟨hgb, hseq ▸ hbound⟩

namespace Virtual

variable (V : Virtual E r o reset t rv)

include V

theorem slotHolder_eq (ht : op.body.topicId = t) :
    slotHolder r o op.body reset = rv.actorBySeq[(t, op.body.actorId, op.body.actorSeq)]? := by
  unfold slotHolder storedActorIndex
  rw [ht]
  exact V.index _ _

theorem tipProjected_eq (ht : op.body.topicId = t) :
    tipProjected r o op.body reset = rv.actorTip[(t, op.body.actorId)]? := by
  unfold tipProjected storedActorTip
  rw [ht]
  exact V.tips _

/-- A position not taken by another op is free for an op not held yet. -/
theorem slot_free (hnew : rv.ops[op.id]? = none)
    (hfork : ¬(rv.actorBySeq[(t, op.body.actorId, op.body.actorSeq)]?.any (· ≠ op.id) = true)) :
    rv.actorBySeq[(t, op.body.actorId, op.body.actorSeq)]? = none := by
  cases hs : rv.actorBySeq[(t, op.body.actorId, op.body.actorSeq)]? with
  | none => rfl
  | some id =>
    obtain ⟨x, hx, hid, -⟩ := (V.ok.slots _ _ _ _).1 hs
    have hxid : x.id = op.id := by simpa [hs, hid] using hfork
    have := hx.1
    rw [hxid, hnew] at this
    cases this

/-- The payload check decides who may write the op and what it carries. -/
theorem validatePayload_post (B : Branch E g γ (rv.admitted t)) (hst : StateOf (rv.admitted t) g γ st)
    (hps : BranchProj E g γ ps) (hvalid : E.Valid op) (ht : op.body.topicId = t)
    (hpay : ∀ γ', op.body.payload ≠ .genesis γ') (hdeps : ∀ d ∈ op.body.deps, ∃ x, rv.ops[d]? = some x) :
    Post (validatePayload E n r o (rv.headsOf t) (some st) ps op)
      (fun ps' => BranchProj E g γ ps' ∧ (∀ d ∈ op.body.deps, ∃ x ∈ rv.admitted t, x.id = d) ∧ Authored E g γ op)
      (fun e => E.FromFault e ∨ ¬Fits E g γ (rv.admitted t) op ∧
        e.Refuses (Stranger E g γ (rv.admitted t) op)) := by
  have hinj : Set.InjOn Op.id (E.past op) := injOn_valid.mono fun _ => valid_of_mem_past
  have memberAt : (∀ e, op.body.payload = .event e → e.typeId = γ.eventTypeId) →
      Post (checkMember E n r o (rv.headsOf t) st ps op)
      (fun ps' => BranchProj E g γ ps' ∧ (∀ d ∈ op.body.deps, ∃ x ∈ rv.admitted t, x.id = d) ∧ Authored E g γ op)
      (fun e => E.FromFault e ∨ ¬Fits E g γ (rv.admitted t) op ∧
        e.Refuses (Stranger E g γ (rv.admitted t) op)) := by
    intro hevent
    unfold checkMember
    refine ((V.authorIsMember_post B hst hps ht hdeps).mono (fun _ h => h) ?_).bind ?_
    · rintro e (he | ⟨rfl, h0⟩ | ⟨rfl, d, hd, hno⟩)
      · exact Or.inl he
      · exact Or.inr ⟨fun F => F.authored.deps h0, trivial⟩
      · refine Or.inr ⟨fun F => ?_, trivial⟩
        obtain ⟨x, hx, hid, -⟩ := F.links.deps d hd
        exact hno x hx hid
    · rintro ⟨isMember, ps'⟩ ⟨hps', hmem, hne, st', hst', hdec⟩
      rw [← past_eq_below hvalid] at hst'
      refine refuseIf_bind (fun hno => ?_) fun hyes => Post.pure ⟨hps', hmem, hne, hpay, hevent, st', hst', ?_⟩
      · have hnot : op.body.author ∉ st'.members := by simpa [hno] using hdec
        refine Or.inr ⟨fun F => ?_, ⟨hvalid, hmem, hne, st', hst', hnot⟩⟩
        obtain ⟨st'', hst'', hin⟩ := F.authored.member
        exact hnot ((hst''.mem_members_iff hinj hst').1 hin)
      · have hyes' : isMember = true := by simpa using hyes
        exact of_decide_eq_true (hdec ▸ hyes')
  unfold validatePayload
  cases hp : op.body.payload with
  | genesis γ' => exact absurd hp (hpay γ')
  | control c => exact memberAt (by simp [hp])
  | event e =>
    refine refuseIf_bind (fun hne => Or.inr ⟨fun F => hne ?_, trivial⟩) fun heq => memberAt ?_
    · rw [hst.eventTypeId, F.authored.eventType e hp]
    · rintro e' he'
      rw [hp] at he'
      cases he'
      rw [← not_not.1 heq, hst.eventTypeId]

/-- **A non-genesis op of a topic with a state is admitted exactly when it fits.** It is refused as
the op of a non-member only when the state of its ancestry does not list its author. -/
theorem validateOpProjected_post (B : Branch E g γ (rv.admitted t)) (hst : StateOf (rv.admitted t) g γ st)
    (hps : BranchProj E g γ ps) (hvalid : E.Valid op) (ht : op.body.topicId = t)
    (hpay : ∀ γ', op.body.payload ≠ .genesis γ') (hdeps : ∀ d ∈ op.body.deps, ∃ x, rv.ops[d]? = some x)
    (hnew : rv.ops[op.id]? = none) :
    Post (validateOpProjected E n r o reset (rv.headsOf t) (some st) ps op)
      (fun res => BranchProj E g γ res.2 ∧ (res.1 = .admitted ↔ Fits E g γ (rv.admitted t) op) ∧
        (res.1 = .duplicate → r.depResolvable op.id = true))
      (fun e => E.FromFault e ∨ ¬Fits E g γ (rv.admitted t) op ∧
        e.Refuses (Stranger E g γ (rv.admitted t) op)) := by
  unfold validateOpProjected
  refine refuseIf_bind (fun hne => Or.inr ⟨fun F => hne F.links.actor, trivial⟩) fun hactor => ?_
  refine refuseIf_bind (fun hany => Or.inr ⟨fun F => ?_, trivial⟩) fun hprev => ?_
  · cases hp : op.body.actorPrev with
    | none => simp [hp] at hany
    | some p =>
      rw [hp] at hany
      exact absurd (F.links.next p hp).1 (by simpa using hany)
  rw [V.slotHolder_eq ht]
  refine refuseIf_bind (fun hany => Or.inr ⟨fun F => ?_, trivial⟩) fun hfork => ?_
  · cases hs : rv.actorBySeq[(t, op.body.actorId, op.body.actorSeq)]? with
    | none => simp [hs] at hany
    | some id =>
      obtain ⟨x, hx, -, ha, hseq⟩ := (V.ok.slots _ _ _ _).1 hs
      exact F.free x hx ha hseq
  rw [V.slot_free hnew hfork, if_neg (by simp)]
  refine (V.validatePayload_post B hst hps hvalid ht hpay hdeps).bind fun ps' hpayload => ?_
  obtain ⟨hps', hmem, hauth⟩ := hpayload
  rw [V.tipProjected_eq ht]
  refine ((V.nextActorPosition_post op.body.actorId).mono (fun _ h => h) ?_).bind fun pos hnext => ?_
  · rintro e ⟨rfl, x, hx, ha, hbig, hmax⟩
    refine Or.inr ⟨fun F => ?_, trivial⟩
    obtain ⟨hseq, -⟩ := F.position B (Or.inr ⟨x, hx, ha, rfl, hmax⟩)
    have := F.links.bounded.2
    change op.body.actorSeq = x.body.actorSeq + 1 at hseq
    omega
  obtain ⟨hb, hpos⟩ := hnext
  obtain ⟨expectedSeq, expectedPrev⟩ := pos
  dsimp only
  split
  · rename_i hne
    have hno : ¬Fits E g γ (rv.admitted t) op := fun F => hne (F.position B hpos).1
    split
    · rename_i hdup
      rw [Bool.and_eq_true] at hdup
      exact Post.pure ⟨hps', by simpa using hno, fun _ => hdup.2⟩
    · exact Post.throw (Or.inr ⟨hno, trivial⟩)
  · rename_i heq
    have hseq : op.body.actorSeq = expectedSeq := not_not.1 heq
    refine refuseIf_bind (fun hne => Or.inr ⟨fun F => hne (F.position B hpos).2, trivial⟩) fun hp => ?_
    refine ((V.generationProjected_post hmem).mono (fun _ h => h) ?_).bind fun G hG => ?_
    · rintro e ⟨rfl, x, hx, hxd, hbig⟩
      refine Or.inr ⟨fun F => ?_, trivial⟩
      have := F.links.bounded.1
      obtain ⟨x', hx', hid, hlt⟩ := F.links.deps _ hxd
      obtain rfl := B.injOn hx' hx hid
      omega
    · obtain ⟨hlt, hex, hGb⟩ := hG
      refine refuseIf_bind (fun hne => Or.inr ⟨fun F => hne (F.generation_eq B hlt hex), trivial⟩) fun hG => ?_
      have hgen : op.body.generation = G := not_not.1 hG
      subst hgen
      have hprev' : ∀ p, op.body.actorPrev = some p → p ∈ op.body.deps := by
        intro p hp
        simpa [hp] using hprev
      have hlinks := links_of_position hvalid (not_not.1 hactor) hmem hprev' hpos hseq
        (not_not.1 hp) hb hlt hex hGb
      exact Post.pure ⟨hps', ⟨fun _ => ⟨hlinks, hauth, NextPosition.free hpos hseq⟩, fun _ => rfl⟩, by simp⟩

/-- A genesis is admitted exactly when the topic has no state and it founds a branch. -/
theorem validateGenesis_post {state : Option TopicState} {heads : BTreeSet OpId} (hvalid : E.Valid op)
    (ht : op.body.topicId = t) (hpay : op.body.payload = .genesis γ) (hnew : rv.ops[op.id]? = none)
    (hempty : state = none → rv.admitted t = ∅) :
    Post (validateOpProjected E n r o reset heads state ps op)
      (fun res => res = (.admitted, ps) ∧ state = none ∧ Founds E op γ)
      (fun e => ¬(state = none ∧ Founds E op γ) ∧ e.Refuses False) := by
  have shape : Founds E op γ → op.body.actorSeq = 1 ∧ op.body.actorPrev = none ∧ op.body.deps = ∅ :=
    fun F => (isStructuralGenesis_iff.1 F.structural).2
  unfold validateOpProjected
  refine refuseIf_bind (fun hne => ⟨fun F => hne F.2.actor, trivial⟩) fun hactor => ?_
  refine refuseIf_bind (fun hany => ⟨fun F => ?_, trivial⟩) fun hprev => ?_
  · simp [(shape F.2).2.1] at hany
  rw [V.slotHolder_eq ht]
  refine refuseIf_bind (fun hany => ⟨fun F => ?_, trivial⟩) fun hfork => ?_
  · cases hs : rv.actorBySeq[(t, op.body.actorId, op.body.actorSeq)]? with
    | none => simp [hs] at hany
    | some id =>
      obtain ⟨x, hx, -⟩ := (V.ok.slots _ _ _ _).1 hs
      rw [hempty F.1] at hx
      exact hx
  rw [V.slot_free hnew hfork, if_neg (by simp)]
  unfold validatePayload
  rw [hpay]
  dsimp only
  rw [bind_assoc]
  refine refuseIf_bind (fun hbad => ⟨fun F => ?_, trivial⟩) fun hgood => ?_
  · obtain ⟨hseq, hprev, hdeps⟩ := shape F.2
    rcases hbad with h | h | h | h | h
    · exact h hseq
    · simp [hprev] at h
    · exact h hdeps
    · exact absurd F.2.typeBytes (by omega)
    · simp [F.1] at h
  push Not at hgood
  obtain ⟨hseq, hprev, hdeps, hbytes, hstate⟩ := hgood
  have hstate' : state = none := by simpa using hstate
  have hprev' : op.body.actorPrev = none := by simpa using hprev
  have htips : rv.actorTip[(t, op.body.actorId)]? = none := by
    cases h : rv.actorTip[(t, op.body.actorId)]? with
    | none => rfl
    | some tip =>
      obtain ⟨⟨x, hx, -⟩, -⟩ := (V.ok.tips t _ tip.1 tip.2).1 h
      rw [hempty hstate'] at hx
      exact hx.elim
  rw [pure_bind, V.tipProjected_eq ht, htips]
  have hst : isStructuralGenesis op = true := isStructuralGenesis_iff.2 ⟨⟨γ, hpay⟩, hseq, hprev', hdeps⟩
  have hzero : generationProjected r o op.body.deps.toList = .ok 0 := by
    rw [hdeps]
    rfl
  rw [nextActorPosition, ok_bind]
  dsimp only
  rw [if_neg (by simp [hseq]), hzero]
  refine refuseIf_bind (fun hne => absurd hprev' hne) fun _ => ?_
  refine refuseIf_bind (fun hne => ⟨fun F => hne F.2.generation, trivial⟩) fun hG => ?_
  have F : Founds E op γ := ⟨hvalid, not_not.1 hactor, hpay, hst, hbytes, not_not.1 hG⟩
  exact Post.pure ⟨rfl, hstate', F⟩

/-- Without a state only a genesis is admitted. -/
theorem validateOpProjected_none {heads : BTreeSet OpId} (hpay : ∀ γ', op.body.payload ≠ .genesis γ')
    (ht : op.body.topicId = t) (hempty : rv.admitted t = ∅) :
    Post (validateOpProjected E n r o reset heads none ps op) (fun _ => False) (Error.Refuses False) := by
  have hslot : slotHolder r o op.body reset = none := by
    rw [V.slotHolder_eq ht]
    cases hs : rv.actorBySeq[(t, op.body.actorId, op.body.actorSeq)]? with
    | none => rfl
    | some id =>
      obtain ⟨x, hx, -⟩ := (V.ok.slots _ _ _ _).1 hs
      rw [hempty] at hx
      exact hx.elim
  unfold validateOpProjected
  refine refuseIf_bind (fun _ => trivial) fun _ => ?_
  refine refuseIf_bind (fun _ => trivial) fun _ => ?_
  refine refuseIf_bind (fun _ => trivial) fun _ => ?_
  rw [hslot, if_neg (by simp)]
  unfold validatePayload
  cases hp : op.body.payload with
  | genesis γ' => exact absurd hp (hpay γ')
  | control c => exact Post.error trivial
  | event e => exact Post.error trivial

omit V in
/-- A clock that counts what lies below the dependencies makes exact metadata. -/
theorem metaOK_metaOf (hvalid : E.Valid op) {clk : ActorClock} (hpos : clk.Positive)
    (hclk : ∀ a s, 1 ≤ s → (s ≤ clk.get a ↔
      ∃ x ∈ E.below op.body.deps, x.body.actorId = a ∧ x.body.actorSeq = s)) : MetaOK E op (metaOf op clk) where
  eq := rfl
  positive := hpos
  exact a s hs := by
    refine (hclk a s hs).trans ?_
    rw [← past_eq_below hvalid]
    rfl

theorem metaForProjected_post (B : Branch E g γ (rv.admitted t)) (hvalid : E.Valid op) (ht : op.body.topicId = t)
    (hmem : ∀ d ∈ op.body.deps, ∃ x ∈ rv.admitted t, x.id = d) :
    Post (metaForProjected r o op) (fun m => ∃ clk, m = metaOf op clk ∧ MetaOK E op (metaOf op clk))
      fun _ => False := by
  have hdeps : ∀ d ∈ op.body.deps, ∃ x, rv.ops[d]? = some x := by
    intro d hd
    obtain ⟨x, hx, rfl⟩ := hmem d hd
    exact ⟨x, hx.1⟩
  unfold metaForProjected
  rw [ht]
  refine ((V.observedClock_covers B hdeps).mono (fun _ h => h) ?_).bind fun clk ⟨_, hpos, hclk⟩ =>
    Post.pure ⟨clk, rfl, metaOK_metaOf hvalid hpos hclk⟩
  rintro e ⟨-, d, hd, hno⟩
  obtain ⟨x, hx, hid⟩ := hmem d hd
  exact hno x hx hid

omit V in
theorem metaForProjected_genesis (hvalid : E.Valid op) (hdeps : op.body.deps = ∅) :
    metaForProjected r o op = .ok (metaOf op ∅) ∧ MetaOK E op (metaOf op ∅) := by
  refine ⟨?_, metaOK_metaOf hvalid ActorClock.Positive.empty fun a s hs => ?_⟩
  · unfold metaForProjected
    rw [hdeps]
    rfl
  · rw [ActorClock.get_empty, hdeps]
    simp only [Env.below, not_mem_empty, false_and, and_false, exists_false, Set.ofPred_false,
      Set.mem_empty_iff_false, iff_false]
    omega

omit V in
/-- The state after an op that fits. -/
theorem nextState_post {S : Set Op} (hst : StateOf S g γ st) (hpay : ∀ γ', op.body.payload ≠ .genesis γ') :
    Post (nextState (some st) op) (fun res => ∃ st', res.1 = some st' ∧ StateOf (insert op S) g γ st' ∧
      (res.2 = false → st' = st)) fun _ => False := by
  unfold nextState
  cases hp : op.body.payload with
  | genesis γ' => exact absurd hp (hpay γ')
  | event e => exact Post.ok ⟨st, rfl, hst.insert_other (by simp [hp]), fun _ => rfl⟩
  | control c => exact Post.ok ⟨_, rfl, hst.applyControl hp, by simp⟩

end Virtual

end Irokle
