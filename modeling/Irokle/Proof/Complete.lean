import Irokle.Proof.Admission

/-!
# Nothing valid is refused

The other direction of the checks: an op of a branch `H`, offered to a store that holds a part of
that branch, passes them all. What is left to refuse it is a bound of the store or a racing writer.

* `Branch.fits` — an op whose dependencies are held fits what is held;
* `validatePendingOp_complete` — an op that misses some is buffered;
* `buildBatch_complete` — a batch of ops of the branch is built.
-/

namespace Irokle

open Std Outcome

variable {E : Env} {n : ℕ} {r rv : Records} {t : TopicId} {g x y op : Op} {γ : TopicGenesis} {S H : Set Op}
  {st : TopicState} {cache : MembershipCache} {ops out done : List Op} {b : Build} {expected : Option TopicState}
  {verified : BTreeSet OpId} {source : Option PeerId} {e : Error} {o : Overlay} {reset : Bool}

/-- A bound was reached, or a racing writer won. -/
def Env.Limits (E : Env) (e : Error) : Prop := e.isLimit = true ∨ e = .admissionConflict ∧ E.Raced

theorem Env.FromFault.limits (h : E.FromFault e) : E.Limits e := by
  rcases h with ⟨domain, required, limit, rfl⟩ | h
  · exact Or.inl rfl
  · exact Or.inr h

/-- **An op of the branch fits a part of it that holds its dependencies.** -/
theorem Branch.fits (B : Branch E g γ H) (hsub : S ⊆ H) (hop : op ∈ H) (hne : op ≠ g) (hnew : op ∉ S)
    (hdeps : ∀ d ∈ op.body.deps, ∃ x ∈ S, x.id = d) : Fits E g γ S op := by
  have L := B.links op hop
  -- what the branch holds under a dependency is what the part holds
  have hheld : ∀ x ∈ H, x.id ∈ op.body.deps → x ∈ S := by
    intro x hx hd
    obtain ⟨y, hy, hid⟩ := hdeps x.id hd
    rwa [← B.injOn (hsub hy) hx hid]
  refine ⟨{ L with deps := ?_, generation := ?_, next := ?_ }, B.authored op hop hne, ?_⟩
  · intro d hd
    obtain ⟨x, hx, rfl, hlt⟩ := L.deps d hd
    exact ⟨x, hheld x hx hd, rfl, hlt⟩
  · intro hgen
    obtain ⟨x, hx, hd, hlt⟩ := L.generation hgen
    exact ⟨x, hheld x hx hd, hd, hlt⟩
  · intro p hp
    obtain ⟨hd, x, hx, rfl, hactor, hseq⟩ := L.next p hp
    exact ⟨hd, x, hheld x hx hd, rfl, hactor, hseq⟩
  · intro x hx hactor hseq
    exact hnew (B.slots x (hsub hx) op hop hactor hseq ▸ hx)

/-- An op with dependencies lies above them. -/
theorem Branch.generation_ne_zero (B : Branch E g γ H) (hop : op ∈ H) (hdeps : op.body.deps ≠ ∅) :
    op.body.generation ≠ 0 := by
  intro hzero
  obtain ⟨d, hd⟩ := BTreeSet.exists_mem_of_ne_empty hdeps
  obtain ⟨x, -, -, hlt⟩ := (B.links op hop).deps d hd
  omega

theorem Records.not_admitted (hnew : r.ops[op.id]? = none) : op ∉ r.admitted t := by
  intro h
  rw [h.1] at hnew
  cases hnew

/-- The records hold a part of the branch `H` of the genesis `g` in the topic `t`. -/
structure PartOf (E : Env) (g : Op) (γ : TopicGenesis) (H : Set Op) (t : TopicId) (r : Records) : Prop where
  branch : Branch E g γ H
  ok : RecordsOK E r
  topic : g.body.topicId = t
  sub : r.admitted t ⊆ H

namespace PartOf

variable (W : PartOf E g γ H t r)

include W

theorem topic_of_mem (hop : op ∈ H) : op.body.topicId = t := (W.branch.topic op hop).trans W.topic

/-- A part that holds something holds the genesis. -/
theorem held_branch (hx : x ∈ r.admitted t) : Branch E g γ (r.admitted t) := by
  obtain ⟨g', γ', -, -, B'⟩ := W.ok.branch_of_mem hx
  obtain ⟨rfl, rfl⟩ := B'.root_unique W.branch W.sub
  exact B'

variable (hop : op ∈ H) (hnew : r.ops[op.id]? = none)

include hop hnew

/-- The position of an op that is not held is free. -/
theorem slot_none : r.actorBySeq[(t, op.body.actorId, op.body.actorSeq)]? = none := by
  cases hslot : r.actorBySeq[(t, op.body.actorId, op.body.actorSeq)]? with
  | none => rfl
  | some id =>
    obtain ⟨x, hx, -, hactor, hseq⟩ := (W.ok.slots t op.body.actorId op.body.actorSeq id).1 hslot
    obtain rfl := W.branch.slots x (W.sub hx) op hop hactor hseq
    exact absurd hx (Records.not_admitted hnew)

/-- An op that is not held lies above what its actor has there. -/
theorem seq_lt (hx : x ∈ r.admitted t) (hactor : x.body.actorId = op.body.actorId) :
    x.body.actorSeq < op.body.actorSeq := by
  by_contra hle
  have h1 : 1 ≤ op.body.actorSeq := (W.branch.links op hop).one_le_seq
  obtain ⟨y, hy, hya, hys⟩ := (W.held_branch hx).taken hx h1 (Nat.not_lt.1 hle)
  obtain rfl := W.branch.slots y (W.sub hy) op hop (hya.trans hactor) hys
  exact Records.not_admitted hnew hy

omit hnew in
/-- A dependency that is held is the op the branch has there. -/
theorem dep_mem {d : OpId} (hd : d ∈ op.body.deps) (hx : r.ops[d]? = some x) :
    x ∈ r.admitted t ∧ x.id = d ∧ x.body.generation < op.body.generation := by
  obtain ⟨y, hy, rfl, hlt⟩ := (W.branch.links op hop).deps d hd
  obtain rfl := W.ok.eq_of_valid hx (W.branch.valid hy)
  exact ⟨⟨hx, W.topic_of_mem hy⟩, rfl, hlt⟩

end PartOf

/-! ## Ops that wait -/

section Waiting

variable (W : PartOf E g γ H t rv) (V : Virtual E r o reset t rv) (hop : op ∈ H) (hnew : rv.ops[op.id]? = none)
  {missing : BTreeSet OpId}

include W hop

theorem pendingPayload_complete (hdeps : op.body.deps ≠ ∅) {state : Option TopicState}
    (hstate : ∀ st, state = some st → st.eventTypeId = γ.eventTypeId) : pendingPayload state op = .ok () := by
  have hgen := W.branch.generation_ne_zero hop hdeps
  have hne : op ≠ g := by
    rintro rfl
    exact hdeps W.branch.root_links.1
  have A := W.branch.authored op hop hne
  unfold pendingPayload
  split
  · rename_i γ' hpay
    exact absurd hpay (A.payload γ')
  · rename_i envelope hpay
    cases state with
    | none => simp [hdeps, hgen, refuseIf]
    | some st =>
      have htype : st.eventTypeId = envelope.typeId := (hstate st rfl).trans (A.eventType envelope hpay).symm
      simp [hdeps, hgen, refuseIf, ensureEventType, htype]
  · simp [hdeps, hgen]

variable (hmissing : ∀ d ∈ op.body.deps, d ∉ missing → ∃ x, rv.ops[d]? = some x)

include V hmissing

/-- A dependency that is not missing is read with its metadata. -/
theorem metaProjected_of_not_missing {d : OpId} (hd : d ∈ op.body.deps) (hin : d ∉ missing) :
    ∃ x ∈ rv.admitted t, x.id = d ∧ x.body.generation < op.body.generation ∧
      ∃ clk, metaProjected r o d = .ok (metaOf x clk) := by
  obtain ⟨x, hx⟩ := hmissing d hd hin
  obtain ⟨hmem, hid, hlt⟩ := W.dep_mem hop hd hx
  obtain ⟨m, hm, -, hmok⟩ := V.metaProjected_ok hx
  exact ⟨x, hmem, hid, hlt, m.observedClock, hmok.eq ▸ hm⟩

theorem pendingPrev_complete : pendingPrev r o missing op.body = .ok () := by
  have L := W.branch.links op hop
  unfold pendingPrev
  split
  · rename_i hprev
    have hseq := L.first hprev
    simp [hseq]
  · rename_i prev hprev
    obtain ⟨hd, x, hx, hid, hactor, hseq⟩ := L.next prev hprev
    have hone : op.body.actorSeq ≠ 1 := by
      have := (W.branch.links x hx).one_le_seq
      omega
    by_cases hin : prev ∈ missing
    · simp [refuseIf, hone, hd, hin, pure, Except.pure]
    · obtain ⟨x', hx', hid', -, clk, hm⟩ := metaProjected_of_not_missing W V hop hmissing hd hin
      obtain rfl := W.branch.injOn (W.sub hx') hx (hid'.trans hid.symm)
      have hnext : checkedNext x'.body.actorSeq = .ok op.body.actorSeq := by
        have hb := L.bounded.2
        unfold checkedNext checkedSucc
        simp [hseq, hb]
      simp [refuseIf, hone, hd, hin, hm, metaOf, hx'.2, W.topic_of_mem hop, hactor, hnext]

theorem pendingDeps_complete : pendingDeps r o missing op.body = .ok () := by
  unfold pendingDeps
  refine Outcome.forM_eq_ok.2 fun d hd => ?_
  split
  · rfl
  · rename_i hin
    obtain ⟨x, hx, -, hlt, clk, hm⟩ :=
      metaProjected_of_not_missing W V hop hmissing (ExtTreeSet.mem_toList.1 hd) hin
    simp [refuseIf, hm, metaOf, hx.2, W.topic_of_mem hop, Nat.not_le.2 hlt, pure, Except.pure]

/-- **An op that misses dependencies is buffered**, unless they are too many. -/
theorem validatePendingOp_complete (hnew : rv.ops[op.id]? = none) (hdeps : op.body.deps ≠ ∅)
    {state : Option TopicState} (hstate : ∀ st, state = some st → st.eventTypeId = γ.eventTypeId) :
    Post (validatePendingOp E r o reset missing state op) (fun res => res = .admitted) E.Limits := by
  have L := W.branch.links op hop
  have ht := W.topic_of_mem hop
  have hslot : slotHolder r o op.body reset = none := by rw [V.slotHolder_eq ht, W.slot_none hop hnew]
  have hpay := pendingPayload_complete W hop hdeps hstate
  have hprev := pendingPrev_complete W V hop hmissing
  have hdeps' := pendingDeps_complete W V hop hmissing
  have hone := L.one_le_seq
  unfold validatePendingOp
  refine refuseIf_bind (fun _ => Or.inl rfl) fun _ => refuseIf_bind (fun h => absurd L.actor h) fun _ => ?_
  refine refuseIf_bind (fun h => by omega) fun _ => refuseIf_bind (fun h => by simp [hslot] at h) fun _ => ?_
  rw [hslot, hpay, hprev, hdeps', V.tipProjected_eq ht]
  simp only [Option.isSome_none, Bool.false_and, Bool.false_eq_true, if_false, ok_bind]
  cases htip : rv.actorTip[(t, op.body.actorId)]? with
  | none => exact Post.pure rfl
  | some tip =>
    obtain ⟨seq, id⟩ := tip
    obtain ⟨⟨x, hx, rfl, hactor, rfl⟩, -⟩ := (V.ok.tips t op.body.actorId seq id).1 htip
    have hlt := W.seq_lt hop hnew hx hactor
    have hnext : checkedNext x.body.actorSeq = .ok (x.body.actorSeq + 1) := by
      have hb : x.body.actorSeq + 1 < u64Size := Nat.lt_of_le_of_lt hlt L.bounded.2
      unfold checkedNext checkedSucc
      simp [hb]
    dsimp only
    rw [hnext]
    simp only [ok_bind, if_neg (Nat.not_le.2 hlt)]
    refine refuseIf_bind (fun h => ?_) fun _ => Post.pure rfl
    -- the op at the tip is the one before this op
    obtain ⟨-, y, hy, hid, -, hseq⟩ := L.next x.id h.1
    obtain rfl := W.branch.injOn hy (W.sub hx) hid
    exact absurd hseq.symm h.2

end Waiting

/-! ## Ops that are admitted -/

section Building

variable {base : Records} (W : PartOf E g γ H t rv) (I : BuildInv E r base reset t expected done b rv)

include W I

/-- A held op comes with a state. -/
theorem BuildInv.state_of_held (hx : x ∈ rv.admitted t) :
    ∃ st, b.state = some st ∧ StateOf (rv.admitted t) g γ st ∧ BranchProj E g γ b.projections := by
  cases hst : b.state with
  | none =>
    rw [(I.noState hst).1] at hx
    exact hx.elim
  | some st =>
    obtain ⟨g', γ', B', hstate, hps⟩ := I.state st hst
    obtain ⟨rfl, rfl⟩ := B'.root_unique W.branch W.sub
    exact ⟨st, rfl, hstate, hps⟩

variable (hop : op ∈ H)

include hop

/-- The op passes the checks, and what is written beside it can be computed. -/
def Admits (E : Env) (n : ℕ) (r : Records) (reset : Bool) (b : Build) (op : Op) : Prop :=
  Post (validateOpProjected E n r b.overlay reset b.heads b.state b.projections op)
    (fun res => res.1 = .admitted) E.FromFault ∧ (∃ m, metaForProjected r b.overlay op = .ok m) ∧
    ∃ state, nextState b.state op = .ok state

theorem BuildInv.admitGenesis_complete {γ' : TopicGenesis} (hpay : op.body.payload = .genesis γ')
    (hnew : rv.ops[op.id]? = none) : Admits E n r reset b op := by
  obtain rfl := W.branch.eq_root_of_payload hop hpay
  have hvalid := W.branch.valid hop
  have hpost : Post (validateOpProjected E n r b.overlay reset b.heads b.state b.projections op) _ _ :=
    I.virtual.validateGenesis_post hvalid W.topic W.branch.payload hnew fun h => (I.noState h).1
  have hnone : b.state = none := by
    -- a topic with a state already holds its genesis
    cases hst : b.state with
    | none => rfl
    | some st =>
      obtain ⟨g', γ', B', -⟩ := I.state st hst
      obtain ⟨rfl, rfl⟩ := B'.root_unique W.branch W.sub
      exact absurd B'.root (Records.not_admitted hnew)
  refine ⟨hpost.mono (fun res h => by rw [h.1]) fun e h => absurd ⟨hnone, W.branch.founds⟩ h.1,
    ⟨_, (Virtual.metaForProjected_genesis hvalid W.branch.root_links.1).1⟩, ?_⟩
  unfold nextState
  rw [W.branch.payload]
  exact ⟨_, rfl⟩

theorem BuildInv.admitOp_complete (hpay : ∀ γ', op.body.payload ≠ .genesis γ') (hnew : rv.ops[op.id]? = none)
    (hheld : ∀ d ∈ op.body.deps, ∃ x, rv.ops[d]? = some x) : Admits E n r reset b op := by
  have hne : op ≠ g := by
    rintro rfl
    exact hpay γ W.branch.payload
  have hdeps : ∀ d ∈ op.body.deps, ∃ x ∈ rv.admitted t, x.id = d := by
    intro d hd
    obtain ⟨x, hx⟩ := hheld d hd
    obtain ⟨hmem, hid, -⟩ := W.dep_mem hop hd hx
    exact ⟨x, hmem, hid⟩
  obtain ⟨d, hd⟩ := BTreeSet.exists_mem_of_ne_empty (W.branch.authored op hop hne).deps
  obtain ⟨x, hx, -⟩ := hdeps d hd
  obtain ⟨st, hst, hstate, hps⟩ := I.state_of_held W hx
  have F : Fits E g γ (rv.admitted t) op := W.branch.fits W.sub hop hne (Records.not_admitted hnew) hdeps
  have hvalid := W.branch.valid hop
  have ht := W.topic_of_mem hop
  have hpost := I.virtual.validateOpProjected_post (n := n)
    (W.held_branch hx) hstate hps hvalid ht hpay hheld hnew
  rw [← hst, ← I.heads] at hpost
  refine ⟨hpost.mono (fun res h => h.2.1.2 F) ?_, ?_, ?_⟩
  · rintro e (he | ⟨hnot, -⟩)
    · exact he
    · exact absurd F hnot
  · obtain ⟨m, hm, -⟩ := (I.virtual.metaForProjected_post (W.held_branch hx) hvalid ht hdeps).total
    exact ⟨m, hm⟩
  · obtain ⟨state, hnext, -⟩ := (Virtual.nextState_post hstate hpay).total
    exact ⟨state, hst ▸ hnext⟩

/-- **An op of the branch that misses nothing is appended.** -/
theorem BuildInv.buildAbsent_appends (hnew : rv.ops[op.id]? = none)
    (hmissing : (missingDepsProjected r b.overlay op reset).isEmpty = true) :
    Post (Irokle.buildAbsent E n r reset false b op) (fun b' => ∃ m state ps, b' = b.addEntry op m state ps)
      E.FromFault := by
  have hheld : ∀ d ∈ op.body.deps, ∃ x, rv.ops[d]? = some x := fun d => I.virtual.resolved_of_missing hmissing
  have hpasses : Admits E n r reset b op := by
    by_cases hpay : ∃ γ', op.body.payload = .genesis γ'
    · obtain ⟨γ', hpay⟩ := hpay
      exact I.admitGenesis_complete W hop hpay hnew
    · push Not at hpay
      exact I.admitOp_complete W hop hpay hnew hheld
  obtain ⟨hpost, ⟨m, hm⟩, ⟨state, hnext⟩⟩ := hpasses
  unfold Irokle.buildAbsent
  dsimp only
  rw [if_neg (by simp), if_pos hmissing]
  refine hpost.bind ?_
  rintro ⟨_, ps⟩ rfl
  dsimp only
  rw [hm, ok_bind, hnext, ok_bind]
  exact Post.pure ⟨m, state, ps, rfl⟩

end Building

section Batch

variable (W : PartOf E g γ H t rv) (I : BuildInv E r r false t expected done b rv) (hop : op ∈ H)

include W I hop

theorem BuildInv.buildAbsent_complete (R : RecordsOK E r) (hnew : rv.ops[op.id]? = none) :
    Post (Irokle.buildAbsent E n r false false b op) (fun _ => True) E.Limits := by
  by_cases hmissing : (missingDepsProjected r b.overlay op false).isEmpty = true
  · exact (I.buildAbsent_appends W hop hnew hmissing).mono (fun _ _ => trivial) fun _ h => h.limits
  · unfold Irokle.buildAbsent
    dsimp only
    rw [if_neg (by simp), if_neg hmissing]
    have hheld : ∀ d ∈ op.body.deps, d ∉ missingDepsProjected r b.overlay op false →
        ∃ x, rv.ops[d]? = some x := by
      intro d hd hin
      rw [I.mem_missing R hd] at hin
      exact Option.ne_none_iff_exists'.1 hin
    have hdeps : op.body.deps ≠ ∅ := by
      intro h
      refine hmissing (ExtTreeSet.isEmpty_iff.2 (ExtTreeSet.eq_empty_iff_forall_not_mem.2 fun d hd => ?_))
      have hin := (BTreeSet.mem_filter.1 hd).1
      rw [h] at hin
      simp at hin
    have hstate : ∀ st, b.state = some st → st.eventTypeId = γ.eventTypeId := by
      intro st hst
      obtain ⟨g', γ', B', hstate, -⟩ := I.state st hst
      obtain ⟨rfl, rfl⟩ := B'.root_unique W.branch W.sub
      exact hstate.eventTypeId
    refine (validatePendingOp_complete W I.virtual hop hheld hnew hdeps hstate).bind ?_
    rintro _ rfl
    exact Post.pure trivial

/-- **An op of the branch is refused by a bound or a race only.** -/
theorem BuildInv.buildOp_complete (R : RecordsOK E r) (hfresh : ∀ x ∈ done, x.id ≠ op.id) :
    Post (Irokle.buildOp E n r false verified b op) (fun _ => True) E.Limits := by
  have hvalid := W.branch.valid hop
  have hrest : Post (buildStored E n r false b op) (fun _ => True) E.Limits := by
    rw [buildStored, if_neg (by simp), R.storedOpState_eq]
    by_cases hc : r.ops.contains op.id
    · rw [if_pos hc]
      rw [ExtTreeMap.contains_eq_isSome_getElem?, Option.isSome_iff_exists] at hc
      obtain ⟨x, hx⟩ := hc
      obtain rfl := R.eq_of_valid hx hvalid
      have hmem : x ∈ rv.admitted t := ⟨I.grows.getElem?_ops.2 (Or.inl hx), W.topic_of_mem hop⟩
      obtain ⟨st, hst, -⟩ := I.state_of_held W hmem
      simp only [hst, Option.isNone_some, Bool.false_eq_true, if_false]
      exact Post.pure trivial
    · rw [if_neg hc]
      refine I.buildAbsent_complete W hop R ?_
      cases h : rv.ops[op.id]? with
      | none => rfl
      | some x =>
        rcases I.grows.getElem?_ops.1 h with h | ⟨e, he, rfl, hid⟩
        · have hx : r.ops[op.id]? = some x := h
          exact absurd (by rw [ExtTreeMap.contains_eq_isSome_getElem?, hx]; rfl) hc
        · exact absurd hid (hfresh e.1 (I.entries e he))
  unfold Irokle.buildOp
  refine (validateFrame_post.mono (fun _ h => h) fun e h => h ▸ Or.inl rfl).bind fun _ _ => ?_
  dsimp only
  split
  · have hok : E.validate op = .ok () := hvalid
    rw [hok]
    exact hrest
  · exact hrest

end Batch

/-! ## A batch -/

/-- The records of a batch of ops of the branch hold a part of it. -/
theorem PartOf.build {base : Records} (W : PartOf E g γ H t base)
    (I : BuildInv E r base reset t expected done b rv) (hdone : ∀ op ∈ done, op ∈ H) :
    PartOf E g γ H t rv := by
  refine ⟨W.branch, I.virtual.ok, W.topic, fun x hx => ?_⟩
  rcases I.grows.getElem?_ops.1 hx.1 with h | ⟨e, he, rfl, -⟩
  · exact W.sub ⟨h, hx.2⟩
  · exact hdone e.1 (I.entries e he)

/-- **A batch of ops of the branch is built**, unless a bound or a race stops it. -/
theorem buildBatch_complete {V : View} (W : PartOf E g γ H t r) (hC : CacheOK E cache)
    (hV : V.receiveGenesis = none) (hops : ∀ op ∈ ops, op ∈ H) :
    Post (buildBatch E V n r cache source ops verified false none) (fun _ => True) E.Limits := by
  have hrank : ∀ x ∈ ops, ∀ y ∈ ops, x.id ∈ y.body.deps → x.body.generation < y.body.generation := by
    intro x hx y hy hd
    exact W.branch.generation_lt ⟨hops x hx, hops y hy, hd⟩
  obtain ⟨out, hout⟩ := topologicalOps_ok hrank
  have O := topologicalOps_ordered hout
  have hin : ∀ op ∈ out, op ∈ H := fun op hop => hops op (O.mem op hop)
  unfold buildBatch
  rw [hout, ok_bind]
  cases hhead : out.head? with
  | none => exact Post.pure trivial
  | some first =>
    dsimp only
    have hfirst : first.body.topicId = t := W.topic_of_mem (hin first (List.mem_of_mem_head? hhead))
    refine refuseIf_bind (fun h => ?_) fun _ => refuseIf_bind (fun h => ?_) fun _ => ?_
    · obtain ⟨op, hop, hne⟩ := List.any_eq_true.1 h
      exact absurd ((W.topic_of_mem (hin op hop)).trans hfirst.symm) (of_decide_eq_true hne)
    · simp [View.boundGenesis, hV] at h
    rw [hfirst]
    have hfold : Post (out.foldlM (buildOp E n r false verified)
        (Build.start (r.expected false t) (cache.branch t (r.expected false t)))) (fun _ => True) E.Limits := by
      refine (Post.foldlM (fun l b => ∃ rv, BuildInv E r r false t (r.expected false t) l b rv)
        ⟨_, W.ok.buildStart hC false t⟩ ?_).mono (fun _ _ => trivial) fun _ h => h
      rintro l op after b rfl ⟨rv, I⟩
      have hop : op ∈ l ++ op :: after := by simp
      have W' : PartOf E g γ H t rv := W.build I fun x hx => hin x (by simp [hx])
      have hkept : Post (buildOp E n r false verified b op) _ _ :=
        I.buildOp W.ok (fun _ => W.branch.valid (hin op hop)) (W.topic_of_mem (hin op hop)) O.fresh O.not_dep
      have hcomplete : Post (buildOp E n r false verified b op) _ _ :=
        I.buildOp_complete W' (hin op hop) W.ok O.fresh
      exact (hkept.and hcomplete).mono (fun _ h => h.1) fun _ h => h.2
    refine hfold.bind fun b _ => ?_
    unfold Build.finish
    exact Post.pure trivial

end Irokle
