import Irokle.Proof.Receive
import Irokle.Spec.Creation

/-!
# Local creation commits fitting ops

A local op is checked against the store alone, by code of its own. What it accepts extends the
branch of its topic exactly like an admitted op, so a local write keeps the invariant.

* `stateForDeps_post` — the fold over the walked ancestry is the state of the dependencies;
* `validateLocalOp_post` — an accepted op fits the branch, an accepted genesis founds one;
* `createLocal_spec`, `createGenesisWithEvent_spec` — a creation commits its ops, or nothing.
-/

namespace Irokle

open Std Outcome Causal List ExtTreeSet

variable {E : Env} {V : View} {K : Prop} {P : Op → Prop} {r rv : Records} {t : TopicId} {g x y op : Op}
  {γ : TopicGenesis} {S : Set Op} {deps : BTreeSet OpId} {st : TopicState} {log log' : Oplog} {n : ℕ}

/-! ## The walk -/

/-- What the walk of `state_for_deps` has reached: ops below `deps`, whose dependencies are reached or
still on the stack. -/
structure Reach (E : Env) (S : Set Op) (deps : BTreeSet OpId) (stack : List OpId) (reachable : BTreeMap OpId Op) :
    Prop where
  queued : ∀ id ∈ stack, ∃ x ∈ S, x.id = id ∧ x ∈ E.below deps
  held : ∀ (id : OpId) op, reachable[id]? = some op → op ∈ S ∧ op.id = id ∧ op ∈ E.below deps
  start : ∀ d ∈ deps, reachable.contains d = true ∨ d ∈ stack
  closed : ∀ (id : OpId) op, reachable[id]? = some op → ∀ d ∈ op.body.deps, reachable.contains d =
    true ∨ d ∈ stack

theorem Reach.pop {id : OpId} {stack : List OpId} {reachable : BTreeMap OpId Op}
    (h : Reach E S deps (id :: stack) reachable) (hid : reachable.contains id = true) :
    Reach E S deps stack reachable := by
  have hstill : ∀ d, reachable.contains d = true ∨ d ∈ id :: stack → reachable.contains d = true ∨ d ∈ stack := by
    rintro d (hd | hd)
    · exact Or.inl hd
    · rcases mem_cons.1 hd with rfl | hd
      · exact Or.inl hid
      · exact Or.inr hd
  exact ⟨fun id' hid' => h.queued id' (mem_cons_of_mem _ hid'), h.held, fun d hd => hstill d (h.start d hd),
    fun id' op hop d hd => hstill d (h.closed id' op hop d hd)⟩

theorem Reach.visit {stack : List OpId} {reachable : BTreeMap OpId Op} (B : Branch E g γ S)
    (h : Reach E S deps (x.id :: stack) reachable) (hx : x ∈ S) :
    Reach E S deps (x.body.deps.toList.reverse ++ stack) (reachable.insert x.id x) := by
  obtain ⟨x', hx', hid, hbelow⟩ := h.queued x.id mem_cons_self
  obtain rfl := B.injOn hx' hx hid
  have hstill : ∀ d, reachable.contains d = true ∨ d ∈ x'.id :: stack →
      (reachable.insert x'.id x').contains d = true ∨ d ∈ x'.body.deps.toList.reverse ++ stack := by
    rintro d (hd | hd)
    · exact Or.inl (by simp [hd])
    · rcases mem_cons.1 hd with rfl | hd
      · exact Or.inl (by simp)
      · exact Or.inr (mem_append_right _ hd)
  refine ⟨fun id hid => ?_, fun id op hop => ?_, fun d hd => hstill d (h.start d hd), fun id op hop d hd => ?_⟩
  · rcases mem_append.1 hid with hid | hid
    · have hdep : id ∈ x'.body.deps := by simpa using hid
      obtain ⟨z, hz, rfl⟩ := B.closed x' hx id hdep
      exact ⟨z, hz, rfl, below_of_dep (B.valid hz) (B.valid hx) hdep hbelow⟩
    · exact h.queued id (mem_cons_of_mem _ hid)
  · rcases BTreeMap.of_getElem?_insert hop with ⟨rfl, rfl⟩ | ⟨-, hop⟩
    · exact ⟨hx, rfl, hbelow⟩
    · exact h.held id op hop
  · rcases BTreeMap.of_getElem?_insert hop with ⟨-, rfl⟩ | ⟨-, hop⟩
    · exact Or.inr (mem_append_left _ (by simpa using hd))
    · exact hstill d (h.closed id op hop d hd)

/-- The walk ends, within its fuel, once nothing is left to reach. -/
theorem reachableWalk_post (B : Branch E g γ (r.admitted t)) {fuel : ℕ} {stack : List OpId}
    {reachable : BTreeMap OpId Op} (h : Reach E (r.admitted t) deps stack reachable)
    (hfuel : stack.length + unseenEdges (·.body.deps.size) r.ops.toList reachable.contains < fuel) :
    Post (reachableWalk r t fuel stack reachable) (Reach E (r.admitted t) deps []) fun _ => False := by
  induction fuel generalizing stack reachable with
  | zero => exact absurd hfuel (Nat.not_lt_zero _)
  | succ fuel ih =>
    cases stack with
    | nil => exact Post.ok h
    | cons id stack =>
      rw [reachableWalk]
      rw [length_cons] at hfuel
      split
      · rename_i hid
        exact ih (h.pop hid) (by omega)
      · rename_i hid
        obtain ⟨x, hx, rfl, -⟩ := h.queued id mem_cons_self
        rw [hx.1]
        dsimp only
        rw [if_neg (by simp [hx.2])]
        refine ih (h.visit B hx) ?_
        have hmono : ∀ id, reachable.contains id = true → (reachable.insert x.id x).contains id = true := by
          intro id hid
          simp [hid]
        have hmem : (x.id, x) ∈ r.ops.toList := ExtTreeMap.mem_toList_iff_getElem?_eq_some.2 hx.1
        have := unseenEdges_seen (f := fun op : Op => op.body.deps.size) hmono hmem
          (Bool.eq_false_iff.2 hid) (by simp)
        rw [length_append, length_reverse, length_toList]
        omega

/-- A finished walk has reached everything below the dependencies. -/
theorem Reach.mem_of_below {reachable : BTreeMap OpId Op} (B : Branch E g γ S) (h : Reach E S deps [] reachable)
    (hx : x ∈ E.below deps) : reachable[x.id]? = some x := by
  have hreached : ∀ {d}, reachable.contains d = true ∨ d ∈ ([] : List OpId) → ∃ y, reachable[d]? = some y := by
    rintro d (hd | hd)
    · rwa [ExtTreeMap.contains_eq_isSome_getElem?, Option.isSome_iff_exists] at hd
    · cases hd
  -- the ancestors of a reached op are reached, by its generation
  have key : ∀ k (y : Op), y.body.generation = k → reachable[y.id]? = some y → x = y ∨ x ∈ E.past y →
      reachable[x.id]? = some x := by
    intro k
    induction k using Nat.strong_induction_on with
    | _ k ih =>
      rintro y hk hy (rfl | hxy)
      · exact hy
      · obtain ⟨hyS, -, -⟩ := h.held y.id y hy
        obtain ⟨z, hz, hdep, hxz⟩ := (mem_past_iff (B.valid hyS)).1 hxy
        obtain ⟨z', hz'S, hid, hlt⟩ := (B.links y hyS).deps z.id hdep
        obtain rfl := (B.valid hz'S).eq_of_id hz hid
        obtain ⟨w, hw⟩ := hreached (h.closed y.id y hy z'.id hdep)
        obtain ⟨hwS, hwid, -⟩ := h.held _ _ hw
        obtain rfl := B.injOn hwS hz'S hwid
        exact ih _ (hk ▸ hlt) w rfl hw hxz
  obtain ⟨y, hy, hdep, hxy⟩ := hx
  obtain ⟨w, hw⟩ := hreached (h.start y.id hdep)
  obtain ⟨hwS, hwid, -⟩ := h.held _ _ hw
  obtain rfl := (B.valid hwS).eq_of_id hy hwid
  exact key _ w rfl hw hxy

/-- **The walked and folded state is the state of the dependencies.** -/
theorem stateForDeps_post (B : Branch E g γ (r.admitted t)) (hdeps : ∀ d ∈ deps, ∃ x ∈ r.admitted t, x.id = d)
    (hne : deps ≠ ∅) : Post (stateForDeps r t deps) (StateOf (E.below deps) g γ) fun _ => False := by
  have hstart : Reach E (r.admitted t) deps deps.toList.reverse ∅ := by
    refine ⟨fun id hid => ?_, by simp, fun d hd => Or.inr (by simpa using hd), by simp⟩
    obtain ⟨x, hx, rfl⟩ := hdeps id (by simpa using hid)
    exact ⟨x, hx, rfl, x, B.valid hx, by simpa using hid, Or.inl rfl⟩
  have hfuel : deps.toList.reverse.length + unseenEdges (·.body.deps.size) r.ops.toList
    (∅ : BTreeMap OpId Op).contains <
      deps.size + (r.ops.toList.map (·.2.body.deps.size)).sum + 1 := by
    have : unseenEdges (·.body.deps.size) r.ops.toList (∅ : BTreeMap OpId Op).contains =
        (r.ops.toList.map (·.2.body.deps.size)).sum := by
      simp [unseenEdges]
    rw [this, length_reverse, length_toList]
    omega
  unfold stateForDeps
  refine (reachableWalk_post B hstart hfuel).bind fun reachable h => ?_
  have hset : {op | op ∈ reachable.toList.map (·.2)} = E.below deps := by
    ext op
    constructor
    · intro hop
      obtain ⟨e, he, rfl⟩ := mem_map.1 hop
      exact (h.held e.1 e.2 (ExtTreeMap.mem_toList_iff_getElem?_eq_some.1 he)).2.2
    · intro hop
      have hmem := h.mem_of_below B hop
      exact mem_map.2 ⟨(op.id, op), ExtTreeMap.mem_toList_iff_getElem?_eq_some.2 hmem, rfl⟩
  have hmem : ∀ op ∈ reachable.toList.map (·.2), op ∈ r.admitted t := by
    intro op hop
    obtain ⟨e, he, rfl⟩ := mem_map.1 hop
    exact (h.held e.1 e.2 (ExtTreeMap.mem_toList_iff_getElem?_eq_some.1 he)).1
  have hroot : g ∈ reachable.toList.map (·.2) := by
    have : g ∈ {op | op ∈ reachable.toList.map (·.2)} := by
      rw [hset]
      exact B.root_mem_below hne hdeps
    exact this
  obtain ⟨st, hst, hstate, -⟩ :=
    materializeTopicState_stateOf B.payload hroot (fun op hop => B.topic op (hmem op hop)) (fun op hop γ' hp => by
      obtain rfl := B.eq_root_of_payload (hmem op hop) hp
      have := B.payload
      rw [hp] at this
      cases this
      exact ⟨rfl, rfl⟩) ∅
  rw [hst]
  rw [hset] at hstate
  exact Post.ok hstate

/-! ## The checks of a local op -/

/-- The store alone reads like itself under an empty overlay. -/
theorem RecordsOK.virtualSelf (R : RecordsOK E r) (t : TopicId) : Virtual E r {} false t r := R.virtual false t

theorem topicState_heads (h : r.topicState t = some st) : st.heads = r.headsOf t := by
  unfold Records.topicState at h
  cases hs : r.topics[t]? with
  | none => rw [hs] at h; cases h
  | some st' =>
    rw [hs] at h
    cases h
    rfl

/-- The author of an accepted local op was a member at its dependencies. -/
theorem localMember_post (R : RecordsOK E r) (hst : r.topicState t = some st) (B : Branch E g γ (r.admitted t))
    (hstate : StateOf (r.admitted t) g γ st) (ht : op.body.topicId = t)
    (hdeps : ∀ d ∈ op.body.deps, ∃ x ∈ r.admitted t, x.id = d) (hne : op.body.deps ≠ ∅) :
    Post (localMember r st op.body)
      (fun _ => ∃ st', StateOf (E.below op.body.deps) g γ st' ∧ op.body.author ∈ st'.members) fun _ => True := by
  unfold localMember
  split
  · rename_i hheads
    have hbelow : E.below op.body.deps = r.admitted t :=
      B.below_eq_of_heads (R.finite t) fun d => by rw [hheads, topicState_heads hst]; exact R.heads t d
    refine refuseIf_post (fun _ => trivial) fun hmem => ⟨st, ?_, not_not.1 hmem⟩
    rw [hbelow]
    exact hstate
  · have hpost : Post (stateForDeps r op.body.topicId op.body.deps) (StateOf (E.below op.body.deps) g γ)
        fun _ => False := by
      rw [ht]
      exact stateForDeps_post B hdeps hne
    obtain ⟨st', h, hst'⟩ := hpost.total
    rw [h]
    exact refuseIf_post (fun _ => trivial) fun hmem => ⟨st', hst', not_not.1 hmem⟩

/-- **An accepted local op fits the branch of its topic.** -/
theorem validateLocalOp_post (R : RecordsOK E r) (hst : r.topicState t = some st)
    (B : Branch E g γ (r.admitted t))
    (hstate : StateOf (r.admitted t) g γ st) (hvalid : E.Valid op) (ht : op.body.topicId = t)
    (hpay : ∀ γ', op.body.payload ≠ .genesis γ') (hdeps : ∀ d ∈ op.body.deps, ∃ x ∈ r.admitted t, x.id = d)
    (hne : op.body.deps ≠ ∅) :
    Post (validateLocalOp E r op) (fun _ => Fits E g γ (r.admitted t) op) fun _ => True := by
  have W := R.virtualSelf t
  have hauthored : Post (localPayload r op.body) (fun _ => Authored E g γ op) fun _ => True := by
    have hmember := localMember_post R hst B hstate ht hdeps hne
    rw [← past_eq_below hvalid] at hmember
    unfold localPayload
    rw [ht, hst]
    cases hp : op.body.payload with
    | genesis γ' => exact absurd hp (hpay γ')
    | event envelope =>
      refine refuseIf_bind (fun _ => trivial) fun htype => ?_
      refine hmember.mono (fun _ hm => ⟨hne, hpay, fun e he => ?_, hm⟩) fun _ h => h
      rw [hp] at he
      cases he
      rw [← hstate.eventTypeId]
      exact (not_not.1 htype).symm
    | control c =>
      refine hmember.mono (fun _ hm => ⟨hne, hpay, fun e he => ?_, hm⟩) fun _ h => h
      rw [hp] at he
      cases he
  unfold validateLocalOp
  refine refuseIf_bind (fun _ => trivial) fun hactor => Post.skip fun _ => Post.skip fun _ => ?_
  rw [ht]
  refine (W.nextActorPosition_post op.body.actorId).weaken.bind fun pos hpos => ?_
  refine refuseIf_bind (fun _ => trivial) fun hseq => ?_
  refine refuseIf_bind (fun _ => trivial) fun hprev => ?_
  refine refuseIf_bind (fun _ => trivial) fun hin => ?_
  refine Post.skip fun _ => hauthored.bind fun _ hauth => ?_
  refine (W.generationProjected_post hdeps).weaken.bind fun G hG => ?_
  refine refuseIf_post (fun _ => trivial) fun hgen => ?_
  have hgen' : op.body.generation = G := not_not.1 hgen
  obtain ⟨hlt, hex, hbound⟩ := hG
  rw [← hgen'] at hlt hex hbound
  have hseq' : op.body.actorSeq = pos.1 := not_not.1 hseq
  refine ⟨links_of_position hvalid (not_not.1 hactor) hdeps (fun p hp => ?_) hpos.2 hseq'
    (not_not.1 hprev) hpos.1 hlt hex hbound, hauth, hpos.2.free hseq'⟩
  by_contra hno
  exact hin (by rw [hp]; simpa using hno)

/-- An accepted local genesis founds the branch of a topic that has none. -/
theorem validateLocalOp_genesis (hvalid : E.Valid op) (hpay : op.body.payload = .genesis γ) :
    Post (validateLocalOp E r op) (fun _ => r.topicState op.body.topicId = none ∧ Founds E op γ)
      fun _ => True := by
  unfold validateLocalOp
  refine refuseIf_bind (fun _ => trivial) fun hactor => ?_
  refine refuseIf_bind (fun _ => trivial) fun hrefused => ?_
  refine Post.skip fun _ => Post.skip fun pos => Post.skip fun _ => Post.skip fun _ => Post.skip fun _ =>
    Post.skip fun _ => ?_
  have hpayload : Post (localPayload r op.body) (fun _ => op.body.actorSeq = 1 ∧ op.body.actorPrev = none ∧
    op.body.deps = ∅ ∧
      r.topicState op.body.topicId = none) fun _ => True := by
    unfold localPayload
    rw [hpay]
    refine refuseIf_post (fun _ => trivial) fun h => ?_
    push Not at h
    obtain ⟨h1, h2, h3, h4⟩ := h
    exact ⟨h1, by simpa using h2, h3, by simpa using h4⟩
  refine hpayload.bind fun _ ⟨hseq, hprev, hdeps, hnone⟩ => ?_
  rw [hdeps]
  refine refuseIf_post (fun _ => trivial) fun hgen =>
    ⟨hnone, hvalid, not_not.1 hactor, hpay, ?_, ?_, not_not.1 hgen⟩
  · exact isStructuralGenesis_iff.2 ⟨⟨γ, hpay⟩, hseq, hprev, hdeps⟩
  · by_contra hlong
    exact hrefused (by simp [genesisRefused, hpay, Nat.lt_of_not_le hlong])

/-! ## The batch of a local op -/

/-- A signed op on the current heads of its topic. -/
structure LocalOp (E : Env) (r : Records) (t : TopicId) (a : ActorId) (peer : PeerId)
    (payload : TopicPayload) (op : Op) :
    Prop where
  valid : E.Valid op
  topicId : op.body.topicId = t
  author : op.body.author = peer
  actorId : op.body.actorId = a
  payload : op.body.payload = payload
  heads : ∀ d ∈ r.headsOf t, d ∈ op.body.deps
  deps : ∀ d ∈ op.body.deps, ∃ x ∈ r.admitted t, x.id = d

variable {a : ActorId} {payload : TopicPayload} {signer : Signer} {effects : LocalEffects} {previous : Option Op}
  {clk : ActorClock} {state : Option TopicState}

theorem signOrReuse_post {body : OpBody} (hprevious : ∀ op, previous = some op → E.Valid op) :
    Post (signOrReuse E body signer previous) (fun op => E.Valid op ∧ op.body = body) fun _ => True := by
  unfold signOrReuse
  cases hp : previous.filter fun op => decide (op.body = body) with
  | some op =>
    obtain ⟨hsome, hbody⟩ := Option.filter_eq_some_iff.1 hp
    exact Post.ok ⟨hprevious op hsome, by simpa using hbody⟩
  | none =>
    have hsign : Post (Op.sign E body signer) (fun op => op.body = body) fun _ => True := by
      unfold Op.sign
      exact Post.skip fun _ => Post.skip fun signature => Post.pure rfl
    refine hsign.bind fun op hbody => ?_
    have hvalid : Post (E.validate op) (fun _ => E.Valid op) fun _ => True :=
      Post.intro (fun _ h => h) fun _ _ => trivial
    exact hvalid.bind fun _ hv => Post.pure ⟨hv, hbody⟩

/-- The next local op depends on the heads and on its actor's tip. -/
theorem nextLocalOp_post (R : RecordsOK E r) (hprevious : ∀ op, previous = some op → E.Valid op) :
    Post (nextLocalOp E r t a (r.headsOf t) payload signer previous) (LocalOp E r t a signer.peerId payload)
      fun _ => True := by
  have hheads : ∀ d ∈ r.headsOf t, ∃ x ∈ r.admitted t, x.id = d := by
    intro d hd
    obtain ⟨x, hx, hid⟩ := (R.heads t d).1 hd
    exact ⟨x, hx.1, hid⟩
  have hposition : Post (localPosition r t a)
      (fun pos => ∀ p, pos.2 = some p → ∃ x ∈ r.admitted t, x.id = p) fun _ => True := by
    unfold localPosition
    cases htip : r.actorTip[(t, a)]? with
    | none => exact Post.ok (by simp)
    | some tip =>
      obtain ⟨seq, id⟩ := tip
      obtain ⟨⟨x, hx, hid, -⟩, -⟩ := (R.tips t a seq id).1 htip
      dsimp only
      cases checkedSucc seq with
      | none => exact Post.error trivial
      | some next =>
        refine Post.ok fun p hp => ?_
        cases hp
        exact ⟨x, hx, hid⟩
  have any : ∀ {y : Result ℕ}, Post y (fun _ => True) fun _ => True :=
    Post.intro (fun _ _ => trivial) fun _ _ => trivial
  unfold nextLocalOp
  refine hposition.bind fun pos hpos => ?_
  obtain ⟨seq, prev⟩ := pos
  dsimp only
  refine Post.ite_bind any fun generation _ => (signOrReuse_post hprevious).mono (fun op hop => ?_) fun _ h => h
  obtain ⟨hvalid, hbody⟩ := hop
  refine ⟨hvalid, by rw [hbody], by rw [hbody], by rw [hbody], by rw [hbody], fun d hd => ?_, fun d hd => ?_⟩
  · rw [hbody]
    cases prev with
    | none => exact hd
    | some p => simp [hd]
  · rw [hbody] at hd
    cases prev with
    | none => exact hheads d hd
    | some p =>
      rcases mem_insert.1 hd with hd | hd
      · obtain rfl := Std.compare_eq_iff_eq.1 hd
        exact hpos p rfl
      · exact hheads d hd

theorem applyControl_frame (st : TopicState) (op : Op) (control : TopicControl) :
    (applyControl st op control).topicId = st.topicId ∧ (applyControl st op control).heads = st.heads := by
  cases control with
  | addPeer p => exact ⟨rfl, rfl⟩
  | removePeer p => exact ⟨rfl, rfl⟩
  | setReplicationPolicy policy =>
    show (st.setPolicy (controlKey op) policy).topicId = _ ∧ (st.setPolicy (controlKey op) policy).heads = _
    unfold TopicState.setPolicy
    split
    · split <;> exact ⟨rfl, rfl⟩
    · exact ⟨rfl, rfl⟩

/-- One appended op as a batch. -/
theorem Appends.batched {effects : AdmissionEffects} (A : Appends E r op clk st) (ht : op.body.topicId = t)
    (hstate : state.or (r.topicState t) = some st)
    (hnew : ∀ st', state = some st' → st'.topicId = t ∧ st'.heads = headsAfter (r.headsOf t) op) :
    Batched E r t { topicId := t, expectedHeads := r.headsOf t, expectedTopicState := r.topicState t
                    entries := [(op, metaOf op clk)], heads := headsAfter (r.headsOf t) op, topicState := state
                    effects := effects } (r.append E op (metaOf op clk) st) where
  topicId := rfl
  grows := Grows.nil.snoc ht A
  heads := by
    rw [headsOf_append, if_pos ht]
    rfl
  expectedHeads := rfl
  expectedState := rfl
  newState := hnew
  state := by
    rw [topicState_append, if_pos ht, headsOf_append, if_pos ht]
    dsimp only
    rw [hstate]
    rfl

/-- A fitting op is not held yet. -/
theorem Fits.new (R : RecordsOK E r) (F : Fits E g γ (r.admitted t) op) (ht : op.body.topicId = t) :
    r.ops[op.id]? = none := by
  cases hx : r.ops[op.id]? with
  | none => rfl
  | some x =>
    obtain rfl := R.eq_of_valid hx F.links.valid
    exact absurd rfl (F.free x (ht ▸ R.mem_admitted hx) rfl)

/-- A fitting op is appended with the clock of its dependencies. -/
theorem Fits.appends (R : RecordsOK E r) (B : Branch E g γ (r.admitted t)) (F : Fits E g γ (r.admitted t) op)
    (ht : op.body.topicId = t) (hclk : MetaOK E op (metaOf op clk))
    (hst : StateOf (insert op (r.admitted t)) g γ st) :
    Appends E r op clk st := by
  subst ht
  exact ⟨F.new R rfl, hclk, g, γ, B.insert B.root_topic.symm F.links F.authored F.free, hst⟩

theorem Founds.appends (R : RecordsOK E r) (F : Founds E op γ) (hnone : r.topicState op.body.topicId = none)
    (hst : StateOf {op} op γ st) : Appends E r op ∅ st := by
  have hempty := R.noState _ hnone
  refine ⟨?_, (Virtual.metaForProjected_genesis (r := r) (o := {}) F.valid
    (isStructuralGenesis_iff.1 F.structural).2.2.2).2, op, γ, ?_⟩
  · cases hx : r.ops[op.id]? with
    | none => rfl
    | some x =>
      obtain rfl := R.eq_of_valid hx F.valid
      have := R.mem_admitted hx
      rw [hempty] at this
      cases this
  · rw [hempty, insert_empty_eq]
    exact ⟨F.branch, hst⟩

/-- A topic with a state has heads. -/
theorem RecordsOK.heads_ne_empty (R : RecordsOK E r) (B : Branch E g γ (r.admitted t)) : r.headsOf t ≠ ∅ := by
  intro hempty
  have hbelow := B.below_eq_of_heads (R.finite t) fun d => R.heads t d
  have hroot := B.root
  rw [← hbelow, hempty] at hroot
  obtain ⟨y, -, hy, -⟩ := hroot
  simp at hy

/-- Only a genesis is accepted for a topic without a state. -/
theorem validateLocalOp_none (hnone : r.topicState op.body.topicId = none)
    (hpay : ∀ γ', op.body.payload ≠ .genesis γ') :
    Post (validateLocalOp E r op) (fun _ => False) fun _ => True := by
  have hpayload : Post (localPayload r op.body) (fun _ => False) fun _ => True := by
    unfold localPayload
    rw [hnone]
    cases hp : op.body.payload with
    | genesis γ' => exact absurd hp (hpay γ')
    | event envelope => exact Post.error trivial
    | control c => exact Post.error trivial
  unfold validateLocalOp
  refine Post.skip fun _ => Post.skip fun _ => Post.skip fun _ => Post.skip fun pos => Post.skip fun _ => ?_
  exact Post.skip fun _ => Post.skip fun _ => Post.skip fun _ => hpayload.bind fun _ h => h.elim

/-- **The batch of an accepted local op** appends it to the records. -/
theorem localBatch_post (R : RecordsOK E r) (hop : LocalOp E r t a peer payload op) :
    Post (localBatch E r effects (r.headsOf t) (r.topicState t) op)
      (fun res => ∃ clk st, res.1 = metaOf op clk ∧ res.2.entries = [(op, res.1)] ∧ Appends E r op clk st ∧
        Batched E r t res.2 (r.append E op (metaOf op clk) st)) fun _ => True := by
  obtain rfl := hop.topicId
  unfold localBatch
  refine Post.skip fun _ => ?_
  by_cases hpay : ∃ γ, op.body.payload = .genesis γ
  · obtain ⟨γ, hpay⟩ := hpay
    refine (validateLocalOp_genesis hop.valid hpay).bind fun _ ⟨hnone, F⟩ => ?_
    have hmeta : metaFor r op = .ok (metaOf op ∅) :=
      (Virtual.metaForProjected_genesis F.valid (isStructuralGenesis_iff.1 F.structural).2.2.2).1
    have A := F.appends R hnone
      ((stateOf_genesisState hpay).withHeads (headsAfter (r.headsOf op.body.topicId) op))
    rw [hmeta]
    simp only [topicStateAfter, hpay]
    dsimp only [bind, Except.bind, Option.or]
    refine (Post.skip fun eff => Post.pure ?_ : Post (effects op _ _ >>= _) _ _)
    refine ⟨∅, _, rfl, rfl, A, A.batched rfl (by simp) fun st' hst' => ?_⟩
    cases hst'
    exact ⟨rfl, rfl⟩
  · push Not at hpay
    cases hst : r.topicState op.body.topicId with
    | none => exact (validateLocalOp_none hst hpay).bind fun _ h => h.elim
    | some st =>
      obtain ⟨g, γ, B, hstate⟩ := R.state _ st hst
      have hne : op.body.deps ≠ ∅ := by
        obtain ⟨d, hd⟩ := BTreeSet.exists_mem_of_ne_empty (R.heads_ne_empty B)
        exact BTreeSet.ne_empty_of_mem (hop.heads d hd)
      refine (validateLocalOp_post R hst B hstate hop.valid rfl hpay hop.deps hne).bind fun _ F => ?_
      have hmeta : Post (metaFor r op) _ _ := (R.virtualSelf _).metaForProjected_post B hop.valid rfl hop.deps
      refine hmeta.never.bind fun m hm => ?_
      obtain ⟨clk, rfl, hclk⟩ := hm
      cases hp : op.body.payload with
      | genesis γ' => exact absurd hp (hpay γ')
      | event envelope =>
        have A := F.appends R B rfl hclk (hstate.insert_other (by simp [hp]))
        simp only [topicStateAfter, hp]
        refine (Post.skip fun eff => Post.pure ?_ : Post (effects op _ _ >>= _) _ _)
        refine ⟨clk, st, rfl, rfl, A, ?_⟩
        rw [← hst]
        exact A.batched rfl (by rw [hst]; rfl) (by simp)
      | control c =>
        have A := F.appends R B rfl hclk
          ((hstate.withHeads (headsAfter (r.headsOf op.body.topicId) op)).applyControl hp)
        simp only [topicStateAfter, hp]
        refine (Post.skip fun eff => Post.pure ?_ : Post (effects op _ _ >>= _) _ _)
        refine ⟨clk, _, rfl, rfl, A, ?_⟩
        rw [← hst]
        refine A.batched rfl rfl fun st' hst' => ?_
        cases hst'
        have hframe := applyControl_frame { st with heads := headsAfter (r.headsOf op.body.topicId) op } op c
        refine ⟨?_, hframe.2⟩
        rw [hframe.1]
        exact hstate.topicId.trans B.root_topic

/-- **The batch of a genesis and its first event** appends both. -/
theorem genesisPairBatch_post {event : Op} {content : TopicGenesis} {m : OpMeta} (R : RecordsOK E r)
    (hop : LocalOp E r t a peer (.genesis content) op) (hm : metaFor r op = .ok m) (hvalid : E.Valid event)
    (ht : event.body.topicId = t) (hdeps : event.body.deps = {op.id}) {envelope : EventEnvelope}
    (hevent : event.body.payload = .event envelope) :
    Post (genesisPairBatch E r n effects (r.headsOf t) (r.topicState t) op m event)
      (fun res => res.2.entries = [(op, m), (event, res.1)] ∧ ∃ rv, Batched E r t res.2 rv) fun _ => True := by
  have hpay : ∀ γ', event.body.payload ≠ .genesis γ' := by simp [hevent]
  obtain rfl := hop.topicId
  have hpg := hop.payload
  unfold genesisPairBatch
  refine Post.skip fun _ => (validateLocalOp_genesis hop.valid hpg).bind fun _ ⟨hnone, F⟩ => Post.skip fun _ => ?_
  obtain ⟨hmeta, -⟩ := Virtual.metaForProjected_genesis (r := r) (o := {}) F.valid
    (isStructuralGenesis_iff.1 F.structural).2.2.2
  have hm' : m = metaOf op ∅ := by
    have : metaFor r op = .ok (metaOf op ∅) := hmeta
    rw [hm] at this
    exact Except.ok.inj this
  subst hm'
  -- the genesis alone, as the overlay shows it
  set heads := headsAfter (r.headsOf op.body.topicId) op with hheads
  set st : TopicState := { genesisState op content with heads := heads } with hst
  have hstate : StateOf {op} op content st := (stateOf_genesisState hpg).withHeads heads
  have A := F.appends R hnone hstate
  set rv := r.append E op (metaOf op ∅) st with hrv
  have W : Virtual E r (genesisOverlay op (metaOf op ∅)) false op.body.topicId rv :=
    (R.virtualSelf _).append A rfl
  have hadmitted : rv.admitted op.body.topicId = {op} := by
    rw [hrv, admitted_append_self A.new, R.noState _ hnone, insert_empty_eq]
  have B : Branch E op content (rv.admitted op.body.topicId) := by
    rw [hadmitted]
    exact F.branch
  have hstate' : StateOf (rv.admitted op.body.topicId) op content st := by rwa [hadmitted]
  have hrvheads : rv.headsOf op.body.topicId = heads := by rw [hrv, headsOf_append, if_pos rfl, hheads]; rfl
  have hmem : ∀ d ∈ event.body.deps, ∃ x ∈ rv.admitted op.body.topicId, x.id = d := by
    intro d hd
    rw [hdeps] at hd
    rw [hadmitted]
    exact ⟨op, rfl, by simpa using hd⟩
  have hnew : rv.ops[event.id]? = none := by
    cases hx : rv.ops[event.id]? with
    | none => rfl
    | some x =>
      obtain rfl := W.ok.eq_of_valid hx hvalid
      have hin := W.ok.mem_admitted hx
      rw [ht, hadmitted] at hin
      cases hin
      exact absurd hpg (hpay content)
  have hnone : BranchProj E op content ∅ := fun id st h => by simp at h
  have hvalidate := W.validateOpProjected_post (n := n) B hstate' hnone hvalid ht hpay
    (fun d hd => by obtain ⟨x, hx, rfl⟩ := hmem d hd; exact ⟨x, hx.1⟩) hnew
  rw [hrvheads] at hvalidate
  simp only [topicStateAfter, hpg]
  dsimp only [bind, Except.bind]
  refine (hvalidate.weaken.bind fun res hres => ?_ : Post (_ >>= _) _ _)
  obtain ⟨admission, ps⟩ := res
  refine refuseIf_bind (fun _ => trivial) fun hdup => ?_
  have hfits : Fits E op content (rv.admitted op.body.topicId) event :=
    hres.2.1.1 (by cases admission <;> simp_all)
  have hmeta' : Post (metaForProjected r (genesisOverlay op (metaOf op ∅)) event) _ _ :=
    W.metaForProjected_post B hvalid ht hmem
  refine hmeta'.never.bind fun em hem => ?_
  obtain ⟨clk, rfl, hclk⟩ := hem
  refine Post.skip fun first => Post.skip fun second => Post.pure ⟨rfl, ?_⟩
  have A' : Appends E rv event clk st := hfits.appends W.ok B ht hclk (hstate'.insert_other (by simp [hevent]))
  have hheads' : (rv.append E event (metaOf event clk) st).headsOf op.body.topicId = headsAfter heads event := by
    rw [headsOf_append, if_pos ht, hrvheads]
    rfl
  refine ⟨rv.append E event (metaOf event clk) st, rfl, (Grows.nil.snoc rfl A).snoc ht A', hheads'.symm, rfl,
    rfl, ?_, ?_⟩
  · intro st' hst'
    cases hst'
    exact ⟨rfl, rfl⟩
  · rw [topicState_append, if_pos ht, hheads']
    rfl

/-! ## Attempts -/

/-- The ops of a local creation are stored with their metadata, and nothing else changes in the history. -/
structure Created (E : Env) (K : Prop) (P : Op → Prop) (log : Oplog) (entries : List (Op × OpMeta))
    (log' : Oplog) : Prop where
  ok : LogOK E K P log'
  reported : Reported E (fun _ => True) log.inner (ExtTreeSet.ofList (entries.map (·.1.id)) compare) [] log'.inner
  stored : ∀ e ∈ entries, log'.inner.ops[e.1.id]? = some e.1 ∧ log'.inner.metas[e.1.id]? = some e.2

theorem Landed.created {batch : AdmittedBatch} (h : Landed E K log batch rv log') (L : LogOK E K P log)
    (H : Batched E log.inner.toRecords t batch rv) : Created E K P log batch.entries log' where
  ok := h.logOK L H
  reported := by
    refine h.committed.reported L.records H h.evictions h.sealedTopics (fun _ _ => trivial) fun id => ?_
    rw [mem_ofList]
    simp
  stored e he := by
    rw [h.committed.agree.ops, h.committed.agree.metas]
    exact ⟨H.grows.getElem?_ops.2 (Or.inr ⟨e, he, rfl, rfl⟩), H.grows.getElem?_metas e he⟩

theorem Created.of_idle {log₁ : Oplog} {entries : List (Op × OpMeta)} (h : Idle log log₁)
    (C : Created E K P log₁ entries log') :
    Created E K P log entries log' where
  ok := C.ok
  reported := by
    rw [← h.inner]
    exact C.reported
  stored := C.stored

/-- What an attempt does: it creates the ops it returns, or it changes nothing and keeps what it signed. -/
def Attempts {α σ : Type} (E : Env) (K : Prop) (P : Op → Prop) (ops : α → List (Op × OpMeta))
    (signedOK : σ → Prop) (attempt : Option σ → Oplog → Result α × Option σ × Oplog) : Prop :=
  ∀ signed log, LogOK E K P log → (∀ s, signed = some s → signedOK s) →
    (∃ res signed' log', attempt signed log = (.ok res, signed', log') ∧ Created E K P log (ops res) log') ∨
      ∃ e signed' log', attempt signed log = (.error e, signed', log') ∧ (∀ s, signed' = some s → signedOK s) ∧
        Idle log log'

section Attempts

variable {α σ : Type} {ops : α → List (Op × OpMeta)} {signedOK : σ → Prop}
  {attempt : Option σ → Oplog → Result α × Option σ × Oplog}

theorem retryCreation_spec (h : Attempts E K P ops signedOK attempt) (attempts : ℕ) {signed : Option σ}
    (L : LogOK E K P log) (hsigned : ∀ s, signed = some s → signedOK s) :
    (∃ res log', Oplog.retryCreation attempt attempts signed log = (.ok res, log') ∧
      Created E K P log (ops res) log') ∨ ∃ e log', Oplog.retryCreation attempt attempts signed log =
        (.error e, log') ∧ Idle log log' := by
  induction attempts generalizing signed log with
  | zero => exact Or.inr ⟨_, _, rfl, .refl _⟩
  | succ attempts ih =>
    rw [Oplog.retryCreation]
    rcases h signed log L hsigned with ⟨res, signed', log', hres, C⟩ | ⟨e, signed', log', hres, hsigned', hidle⟩
    · rw [hres]
      exact Or.inl ⟨res, log', rfl, C⟩
    · rw [hres]
      dsimp only
      split
      · rcases ih (hidle.logOK L) hsigned' with ⟨res, log'', hret, C⟩ | ⟨e', log'', hret, hidle'⟩
        · exact Or.inl ⟨res, log'', hret, C.of_idle hidle⟩
        · exact Or.inr ⟨e', log'', hret, hidle.trans hidle'⟩
      · exact Or.inr ⟨e, log', rfl, hidle⟩

/-- A creation stores what it returns, or changes nothing. -/
theorem create_spec (h : Attempts E K P ops signedOK attempt) (L : LogOK E K P log) :
    (∃ res log', log.create E attempt = (.ok res, log') ∧ Created E K P log (ops res) log') ∨
      ∃ e log', log.create E attempt = (.error e, log') ∧ Idle log log' := by
  have hticked : Idle log { log with writes := log.writes + 1 } := ⟨rfl, rfl, rfl⟩
  unfold Oplog.create
  dsimp only
  split
  · exact Or.inr ⟨_, _, rfl, hticked⟩
  · have hnone : ∀ s, (none : Option σ) = some s → signedOK s := by simp
    rcases retryCreation_spec h maxAdmissionRetries (hticked.logOK L) hnone with
      ⟨res, log', hret, C⟩ | ⟨e, log', hret, hidle⟩
    · exact Or.inl ⟨res, log', hret, C.of_idle hticked⟩
    · exact Or.inr ⟨e, log', hret, hticked.trans hidle⟩

end Attempts

theorem tryLocal_attempts (V : View) (t : TopicId) (a : ActorId) (payload : TopicPayload) (signer : Signer)
    (effects : LocalEffects) :
    Attempts E K P (fun res => [res]) E.Valid (Oplog.tryLocal E V t a payload signer effects) := by
  intro signed log L hsigned
  unfold Oplog.tryLocal
  dsimp only
  split
  · exact Or.inr ⟨_, _, _, rfl, hsigned, .refl _⟩
  · have hnext : Post (nextLocalOp E log.inner.toRecords t a (log.inner.headsOf t) payload signer signed) _ _ :=
      nextLocalOp_post L.records hsigned
    cases hop : nextLocalOp E log.inner.toRecords t a (log.inner.headsOf t) payload signer signed with
    | error e => exact Or.inr ⟨_, _, _, rfl, by simp, .refl _⟩
    | ok op =>
      have hlocal := hnext.of_ok hop
      have hkeep : ∀ s, some op = some s → E.Valid s := by
        rintro s ⟨⟩
        exact hlocal.valid
      have hbatch : Post (localBatch E log.inner.toRecords effects (log.inner.headsOf t)
        (log.inner.topicState t) op) _ _ :=
        localBatch_post L.records hlocal
      dsimp only
      cases hb : localBatch E log.inner.toRecords effects (log.inner.headsOf t) (log.inner.topicState t) op with
      | error e => exact Or.inr ⟨_, _, _, rfl, hkeep, .refl _⟩
      | ok res =>
        obtain ⟨m, batch⟩ := res
        obtain ⟨clk, st, -, hentries, -, H⟩ := hbatch.of_ok hb
        dsimp only
        rcases putAdmittedBatch_spec V L H with ⟨e, log', hput, hidle, -⟩ | ⟨log', hput, hl⟩
        · rw [hput]
          exact Or.inr ⟨_, _, _, rfl, hkeep, hidle⟩
        · rw [hput]
          refine Or.inl ⟨(op, m), none, log', rfl, ?_⟩
          have C := hl.created L H
          rwa [hentries] at C

/-- **A local creation** stores the op it returns, or changes nothing. -/
theorem createLocal_spec (V : View) (t : TopicId) (a : ActorId) (payload : TopicPayload) (signer : Signer)
    (effects : LocalEffects) (L : LogOK E K P log) :
    (∃ res log', log.createLocal E V t a payload signer effects = (.ok res, log') ∧
      Created E K P log [res] log') ∨ ∃ e log', log.createLocal E V t a payload signer effects =
        (.error e, log') ∧ Idle log log' :=
  create_spec (tryLocal_attempts V t a payload signer effects) L

theorem tryGenesis_attempts (V : View) (t : TopicId) (a : ActorId) (genesis : TopicGenesis)
    (event : EventEnvelope) (signer : Signer) (effects : LocalEffects) :
    Attempts E K P (fun res => [res.1, res.2]) (fun s => E.Valid s.1 ∧ E.Valid s.2)
      (Oplog.tryGenesis E V t a genesis event signer effects) := by
  intro signed log L hsigned
  have hprepared : Post (do
      let genesisOp ← nextLocalOp E log.inner.toRecords t a (log.inner.headsOf t) (.genesis genesis) signer
        (signed.map (·.1))
      let genesisMeta ← metaFor log.inner.toRecords genesisOp
      let eventOp ← signOrReuse E
        { topicId := t, author := signer.peerId, actorId := a
          actorSeq := ← checkedNext genesisMeta.actorSeq, actorPrev := some genesisOp.id
          deps := {genesisOp.id}, generation := ← checkedNext genesisMeta.generation, payload := .event event }
        signer (signed.map (·.2))
      return (genesisOp, genesisMeta, eventOp) : Result (Op × OpMeta × Op))
      (fun res => LocalOp E log.inner.toRecords t a signer.peerId (.genesis genesis) res.1 ∧
        metaFor log.inner.toRecords res.1 = .ok res.2.1 ∧ E.Valid res.2.2 ∧ res.2.2.body.topicId = t ∧
        res.2.2.body.deps = {res.1.id} ∧ res.2.2.body.payload = .event event) fun _ => True := by
    refine (nextLocalOp_post L.records fun op hop => ?_).bind fun genesisOp hlocal => ?_
    · obtain ⟨s, hs, rfl⟩ := Option.map_eq_some_iff.1 hop
      exact (hsigned s hs).1
    have hmeta : Post (metaFor log.inner.toRecords genesisOp)
      (fun m => metaFor log.inner.toRecords genesisOp = .ok m) fun _ => True :=
      Post.intro (fun _ h => h) fun _ _ => trivial
    refine hmeta.bind fun m hm => Post.skip fun seq => Post.skip fun generation => ?_
    refine (signOrReuse_post fun op hop => ?_).bind fun eventOp hevent => ?_
    · obtain ⟨s, hs, rfl⟩ := Option.map_eq_some_iff.1 hop
      exact (hsigned s hs).2
    obtain ⟨hvalid, hbody⟩ := hevent
    exact Post.pure ⟨hlocal, hm, hvalid, by rw [hbody], by rw [hbody], by rw [hbody]⟩
  unfold Oplog.tryGenesis
  dsimp only
  split
  · exact Or.inr ⟨_, _, _, rfl, by simp, .refl _⟩
  · rename_i genesisOp genesisMeta eventOp hok
    obtain ⟨hlocal, hm, hvalid, ht, hdeps, hpay⟩ := hprepared.of_ok hok
    have hkeep : ∀ s, some (genesisOp, eventOp) = some s → E.Valid s.1 ∧ E.Valid s.2 := by
      rintro s ⟨⟩
      exact ⟨hlocal.valid, hvalid⟩
    have hbatch : Post (genesisPairBatch E log.inner.toRecords log.writes effects (log.inner.headsOf t)
      (log.inner.topicState t)
        genesisOp genesisMeta eventOp) _ _ := genesisPairBatch_post L.records hlocal hm hvalid ht hdeps hpay
    split
    · exact Or.inr ⟨_, _, _, rfl, hkeep, .refl _⟩
    · rename_i eventMeta batch hb
      obtain ⟨hentries, rv, H⟩ := hbatch.of_ok hb
      rcases putAdmittedBatch_spec V L H with ⟨e, log', hput, hidle, -⟩ | ⟨log', hput, hl⟩
      · rw [hput]
        exact Or.inr ⟨_, _, _, rfl, hkeep, hidle⟩
      · rw [hput]
        refine Or.inl ⟨_, none, log', rfl, ?_⟩
        have C := hl.created L H
        rwa [hentries] at C

/-- **Creating a topic with its first event** stores both ops, or changes nothing. -/
theorem createGenesisWithEvent_spec (V : View) (t : TopicId) (a : ActorId) (genesis : TopicGenesis)
    (event : EventEnvelope) (signer : Signer) (effects : LocalEffects) (L : LogOK E K P log) :
    (∃ res log', log.createGenesisWithEvent E V t a genesis event signer effects = (.ok res, log') ∧
        Created E K P log [res.1, res.2] log') ∨
      ∃ e log', log.createGenesisWithEvent E V t a genesis event signer effects = (.error e, log') ∧
        Idle log log' :=
  create_spec (tryGenesis_attempts V t a _ event signer effects) L

end Irokle
