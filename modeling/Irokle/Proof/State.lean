import Irokle.Lib.LastWriter
import Irokle.Spec.Build

/-!
# The state of a set of ops

`StateOf W g γ st` says what the topic state of a set of ops on the genesis `g` is, without an
order: per peer, and for the policy, the control with the greatest key wins. Every way the code
computes a state agrees with it:

* `stateOf_genesisState`, `StateOf.applyControl` — op by op;
* `StateOf.mergeState` — merging the states of two sets;
* `materializeTopicState_stateOf` — the fold over a list in any order;
* `StateOf.ext` — the state is determined up to its heads.
-/

namespace Irokle

open Std LastWriter ExtTreeMap

/-- The membership controls on a peer. -/
def memberWrites (W : Set Op) (p : PeerId) : Set (ControlKey × Bool) :=
  {e | ∃ op ∈ W, e.1 = controlKey op ∧
    (op.body.payload = .control (.addPeer p) ∧ e.2 = true ∨
      op.body.payload = .control (.removePeer p) ∧ e.2 = false)}

/-- The controls on the replication policy. -/
def policyWrites (W : Set Op) : Set (ControlKey × ReplicationPolicy) :=
  {e | ∃ op ∈ W, e.1 = controlKey op ∧ op.body.payload = .control (.setReplicationPolicy e.2)}

/-- `st` is the state of the ops `W` on the genesis `g` with content `γ`. -/
structure StateOf (W : Set Op) (g : Op) (γ : TopicGenesis) (st : TopicState) : Prop where
  genesis : st.genesis = g.id
  topicId : st.topicId = g.body.topicId
  eventTypeId : st.eventTypeId = γ.eventTypeId
  controls : ∀ p : PeerId, IsLatest (memberWrites W p) st.membershipControls[p]?
  policyControl : IsLatest (policyWrites W) st.replicationPolicyControl
  members : ∀ p : PeerId, p ∈ st.members ↔
    match st.membershipControls[p]? with
    | some e => e.2 = true
    | none => p ∈ γ.initialPeers
  policy : st.replicationPolicy = (st.replicationPolicyControl.map (·.2)).getD γ.replicationPolicy

variable {V W : Set Op} {g op : Op} {γ : TopicGenesis} {st st' : TopicState} {p q : PeerId}

/-! ## Controls of a set -/

theorem memberWrites_insert_add (h : op.body.payload = .control (.addPeer p)) :
    memberWrites (insert op W) q =
      if p = q then insert (controlKey op, true) (memberWrites W q) else memberWrites W q := by
  ext ⟨k, b⟩
  simp only [memberWrites, Set.mem_ofPred_eq, Set.exists_mem_insert, h]
  by_cases hpq : p = q
  · subst hpq
    simp [Prod.ext_iff]
  · simp [hpq]

theorem memberWrites_insert_remove (h : op.body.payload = .control (.removePeer p)) :
    memberWrites (insert op W) q =
      if p = q then insert (controlKey op, false) (memberWrites W q) else memberWrites W q := by
  ext ⟨k, b⟩
  simp only [memberWrites, Set.mem_ofPred_eq, Set.exists_mem_insert, h]
  by_cases hpq : p = q
  · subst hpq
    simp [Prod.ext_iff]
  · simp [hpq]

theorem memberWrites_insert_other (h : ∀ p, op.body.payload ≠ .control (.addPeer p))
    (h' : ∀ p, op.body.payload ≠ .control (.removePeer p)) :
    memberWrites (insert op W) q = memberWrites W q := by
  ext ⟨k, b⟩
  simp [memberWrites, h, h']

theorem policyWrites_insert_policy {policy : ReplicationPolicy}
    (h : op.body.payload = .control (.setReplicationPolicy policy)) :
    policyWrites (insert op W) = insert (controlKey op, policy) (policyWrites W) := by
  ext ⟨k, b⟩
  simp [policyWrites, h, Prod.ext_iff, eq_comm]

theorem policyWrites_insert_other (h : ∀ policy, op.body.payload ≠ .control (.setReplicationPolicy policy)) :
    policyWrites (insert op W) = policyWrites W := by
  ext ⟨k, b⟩
  simp [policyWrites, h]

theorem memberWrites_union : memberWrites (V ∪ W) p = memberWrites V p ∪ memberWrites W p := by
  ext e
  simp only [memberWrites, Set.mem_ofPred_eq, Set.mem_union, or_and_right, exists_or]

theorem policyWrites_union : policyWrites (V ∪ W) = policyWrites V ∪ policyWrites W := by
  ext e
  simp only [policyWrites, Set.mem_ofPred_eq, Set.mem_union, or_and_right, exists_or]

theorem memberWrites_mono (h : V ⊆ W) : memberWrites V p ⊆ memberWrites W p :=
  fun _ ⟨op, hop, he⟩ => ⟨op, h hop, he⟩

theorem policyWrites_mono (h : V ⊆ W) : policyWrites V ⊆ policyWrites W :=
  fun _ ⟨op, hop, he⟩ => ⟨op, h hop, he⟩

/-! ## One control at a time -/

theorem setMembershipControl_getElem? {controls : BTreeMap PeerId (ControlKey × Bool)} {k : ControlKey}
    {b : Bool} :
    (setMembershipControl controls p k b).1[q]? =
      if p = q then put controls[q]? (k, b) else controls[q]? := by
  unfold setMembershipControl
  by_cases hpq : p = q
  · subst hpq
    cases hc : controls[p]? with
    | none => simp [put]
    | some e =>
      by_cases hlt : e.1 < k
      · simp [put, hlt]
      · simp [put, hlt, hc]
  · cases hc : controls[p]? with
    | none => simp [hpq, getElem?_insert]
    | some e =>
      by_cases hlt : e.1 < k
      · simp [hlt, hpq, getElem?_insert]
      · simp [hlt, hpq]

/-- A membership control takes effect exactly when it becomes the winner. -/
theorem setMembershipControl_snd (controls : BTreeMap PeerId (ControlKey × Bool)) (p : PeerId)
    (k : ControlKey) (b : Bool) :
    if (setMembershipControl controls p k b).2 then put controls[p]? (k, b) = some (k, b)
    else put controls[p]? (k, b) = controls[p]? ∧ controls[p]? ≠ none := by
  unfold setMembershipControl
  cases hc : controls[p]? with
  | none => simp [put]
  | some e =>
    by_cases hlt : e.1 < k <;> simp [put, hlt]

theorem StateOf.setMembership {k : ControlKey} {b : Bool} (h : StateOf W g γ st)
    (hmem : ∀ q, memberWrites V q = if p = q then insert (k, b) (memberWrites W q) else memberWrites W q)
    (hpol : policyWrites V = policyWrites W) : StateOf V g γ (st.setMembership p k b) where
  genesis := h.genesis
  topicId := h.topicId
  eventTypeId := h.eventTypeId
  controls q := by
    simp only [TopicState.setMembership]
    rw [setMembershipControl_getElem?, hmem]
    by_cases hpq : p = q
    · simp only [hpq, if_true]
      exact (h.controls q).put
    · simp only [hpq, if_false]
      exact h.controls q
  policyControl := by
    rw [hpol]
    exact h.policyControl
  members q := by
    simp only [TopicState.setMembership]
    rw [setMembershipControl_getElem?]
    have hsnd := setMembershipControl_snd st.membershipControls p k b
    by_cases hpq : p = q
    · subst hpq
      simp only [if_true]
      split at hsnd
      · rename_i hflag
        simp only [hflag, if_true, hsnd, setMember]
        cases b <;> simp
      · rename_i hflag
        simp only [hflag, hsnd.1]
        exact h.members p
    · simp only [hpq, if_false]
      refine Iff.trans ?_ (h.members q)
      split
      · cases b <;> simp [setMember, hpq]
      · rfl
  policy := h.policy

theorem StateOf.setPolicy {k : ControlKey} {policy : ReplicationPolicy} (h : StateOf W g γ st)
    (hmem : ∀ q, memberWrites V q = memberWrites W q)
    (hpol : policyWrites V = insert (k, policy) (policyWrites W)) : StateOf V g γ (st.setPolicy k policy) := by
  have hput := h.policyControl.put (e := (k, policy))
  rw [← hpol] at hput
  unfold TopicState.setPolicy
  cases hc : st.replicationPolicyControl with
  | none =>
    rw [hc] at hput
    exact ⟨h.genesis, h.topicId, h.eventTypeId, fun q => hmem q ▸ h.controls q, hput, h.members, rfl⟩
  | some current =>
    rw [hc] at hput
    by_cases hlt : current.1 < k
    · simp only [put, hlt, if_true] at hput ⊢
      exact ⟨h.genesis, h.topicId, h.eventTypeId, fun q => hmem q ▸ h.controls q, hput, h.members, rfl⟩
    · simp only [put, hlt, if_false] at hput ⊢
      exact ⟨h.genesis, h.topicId, h.eventTypeId, fun q => hmem q ▸ h.controls q, hc ▸ hput, h.members, h.policy⟩

/-- A control extends the state of the ops before it. -/
theorem StateOf.applyControl {control : TopicControl} (h : StateOf W g γ st)
    (hop : op.body.payload = .control control) : StateOf (insert op W) g γ (applyControl st op control) := by
  cases control with
  | addPeer p =>
    exact h.setMembership (fun q => memberWrites_insert_add hop)
      (policyWrites_insert_other (by simp [hop]))
  | removePeer p =>
    exact h.setMembership (fun q => memberWrites_insert_remove hop)
      (policyWrites_insert_other (by simp [hop]))
  | setReplicationPolicy policy =>
    exact h.setPolicy (fun q => memberWrites_insert_other (by simp [hop]) (by simp [hop]))
      (policyWrites_insert_policy hop)

/-- An op without a control leaves the state alone. -/
theorem StateOf.insert_other (h : StateOf W g γ st) (hop : ∀ c, op.body.payload ≠ .control c) :
    StateOf (insert op W) g γ st :=
  ⟨h.genesis, h.topicId, h.eventTypeId,
    fun q => memberWrites_insert_other (W := W) (q := q) (fun _ => hop _) (fun _ => hop _) ▸ h.controls q,
    policyWrites_insert_other (W := W) (fun _ => hop _) ▸ h.policyControl, h.members, h.policy⟩

theorem StateOf.withHeads (h : StateOf W g γ st) (heads : BTreeSet OpId) :
    StateOf W g γ { st with heads := heads } :=
  ⟨h.genesis, h.topicId, h.eventTypeId, h.controls, h.policyControl, h.members, h.policy⟩

theorem memberWrites_empty : memberWrites ∅ p = ∅ := by simp [memberWrites]

theorem policyWrites_empty : policyWrites ∅ = ∅ := by simp [policyWrites]

/-- The state a genesis starts is the state of it alone. -/
theorem stateOf_genesisState (hg : g.body.payload = .genesis γ) : StateOf {g} g γ (genesisState g γ) := by
  have h0 : StateOf ∅ g γ (genesisState g γ) := by
    refine ⟨rfl, rfl, rfl, fun p => ?_, ?_, fun p => ?_, rfl⟩
    · rw [memberWrites_empty]
      simpa [genesisState] using IsLatest.empty
    · rw [policyWrites_empty]
      exact IsLatest.empty
    · simp [genesisState]
  have hne : ∀ c, g.body.payload ≠ .control c := by simp [hg]
  simpa using h0.insert_other hne

/-! ## Sets with the same winners -/

/-- A larger set whose controls lie below those already folded has the same state. -/
theorem StateOf.of_dominated (h : StateOf V g γ st) (hsub : V ⊆ W)
    (hmem : ∀ p, ∀ e ∈ memberWrites W p, ∃ w ∈ memberWrites V p, e.1 ≤ w.1)
    (hpol : ∀ e ∈ policyWrites W, ∃ w ∈ policyWrites V, e.1 ≤ w.1) : StateOf W g γ st where
  genesis := h.genesis
  topicId := h.topicId
  eventTypeId := h.eventTypeId
  controls p := by
    refine ⟨fun e he => memberWrites_mono hsub ((h.controls p).mem e he), fun e he => ?_⟩
    obtain ⟨w, hw, hle⟩ := hmem p e he
    obtain ⟨w', hw', hle'⟩ := (h.controls p).le w hw
    exact ⟨w', hw', hle.trans hle'⟩
  policyControl := by
    refine ⟨fun e he => policyWrites_mono hsub (h.policyControl.mem e he), fun e he => ?_⟩
    obtain ⟨w, hw, hle⟩ := hpol e he
    obtain ⟨w', hw', hle'⟩ := h.policyControl.le w hw
    exact ⟨w', hw', hle.trans hle'⟩
  members := h.members
  policy := h.policy

/-- A smaller set that still holds every winning control has the same state. -/
theorem StateOf.of_subset (h : StateOf W g γ st) (hsub : V ⊆ W)
    (hmem : ∀ (p : PeerId) e, st.membershipControls[p]? = some e → e ∈ memberWrites V p)
    (hpol : ∀ e, st.replicationPolicyControl = some e → e ∈ policyWrites V) : StateOf V g γ st :=
  ⟨h.genesis, h.topicId, h.eventTypeId,
    fun p => (h.controls p).of_subset (memberWrites_mono hsub) (hmem p),
    h.policyControl.of_subset (policyWrites_mono hsub) hpol, h.members, h.policy⟩

theorem memberWrites_injective (hinj : Set.InjOn Op.id W) :
    ∀ e ∈ memberWrites W p, ∀ e' ∈ memberWrites W p, e.1 = e'.1 → e = e' := by
  rintro ⟨k, b⟩ ⟨op, hop, rfl, hb⟩ ⟨k', b'⟩ ⟨op', hop', rfl, hb'⟩ hkey
  have hid : op.id = op'.id := congrArg ControlKey.opId hkey
  obtain rfl := hinj hop hop' hid
  rcases hb with ⟨hb, rfl⟩ | ⟨hb, rfl⟩ <;> rcases hb' with ⟨hb', rfl⟩ | ⟨hb', rfl⟩ <;> simp_all

theorem policyWrites_injective (hinj : Set.InjOn Op.id W) :
    ∀ e ∈ policyWrites W, ∀ e' ∈ policyWrites W, e.1 = e'.1 → e = e' := by
  rintro ⟨k, b⟩ ⟨op, hop, rfl, hb⟩ ⟨k', b'⟩ ⟨op', hop', rfl, hb'⟩ hkey
  have hid : op.id = op'.id := congrArg ControlKey.opId hkey
  obtain rfl := hinj hop hop' hid
  simp_all

/-- **The ops determine the state, up to its heads.** -/
theorem StateOf.ext (hinj : Set.InjOn Op.id W) (h : StateOf W g γ st) (h' : StateOf W g γ st') :
    { st with heads := st'.heads } = st' := by
  have hcontrols : st.membershipControls = st'.membershipControls :=
    ext_getElem? fun (p : PeerId) =>
      IsLatest.unique (memberWrites_injective hinj) (h.controls p) (h'.controls p)
  have hpolicy : st.replicationPolicyControl = st'.replicationPolicyControl :=
    IsLatest.unique (policyWrites_injective hinj) h.policyControl h'.policyControl
  have hmembers : st.members = st'.members := by
    refine ExtTreeSet.ext_mem fun p => ?_
    rw [h.members, h'.members, hcontrols]
  have hpol : st.replicationPolicy = st'.replicationPolicy := by
    rw [h.policy, h'.policy, hpolicy]
  have hgen := h.genesis.trans h'.genesis.symm
  have htopic := h.topicId.trans h'.topicId.symm
  have hevent := h.eventTypeId.trans h'.eventTypeId.symm
  cases st
  cases st'
  simp_all

/-- Two states of the same ops have the same members. -/
theorem StateOf.mem_members_iff (hinj : Set.InjOn Op.id W) (h : StateOf W g γ st) (h' : StateOf W g γ st') :
    p ∈ st.members ↔ p ∈ st'.members := by
  rw [← h.ext hinj h']

/-! ## Merging -/

/-- A winning membership control is applied like the op that wrote it. -/
theorem StateOf.putMember {e : ControlKey × Bool} (h : StateOf V g γ st) (he : e ∈ memberWrites W p) :
    ∃ op ∈ W, StateOf (insert op V) g γ (st.setMembership p e.1 e.2) ∧ e ∈ memberWrites {op} p := by
  obtain ⟨k, b⟩ := e
  obtain ⟨op, hop, rfl, ⟨hpay, rfl⟩ | ⟨hpay, rfl⟩⟩ := he
  · exact ⟨op, hop, h.applyControl hpay, op, rfl, rfl, Or.inl ⟨hpay, rfl⟩⟩
  · exact ⟨op, hop, h.applyControl hpay, op, rfl, rfl, Or.inr ⟨hpay, rfl⟩⟩

theorem StateOf.putMembers (l : List (PeerId × ControlKey × Bool)) (hl : ∀ e ∈ l, e.2 ∈ memberWrites W e.1)
    (h : StateOf V g γ st) : ∃ U, V ⊆ U ∧ U ⊆ V ∪ W ∧ (∀ e ∈ l, e.2 ∈ memberWrites U e.1) ∧
      StateOf U g γ (l.foldl (fun st e => st.setMembership e.1 e.2.1 e.2.2) st) := by
  induction l generalizing V st with
  | nil => exact ⟨V, subset_rfl, Set.subset_union_left, by simp, h⟩
  | cons e l ih =>
    obtain ⟨op, hop, hst, he⟩ := h.putMember (hl e (by simp))
    obtain ⟨U, hVU, hU, hmem, hfold⟩ := ih (fun e he => hl e (by simp [he])) hst
    refine ⟨U, (Set.subset_insert _ _).trans hVU, fun x hx => ?_, fun e' he' => ?_, hfold⟩
    · rcases hU hx with (rfl | hx) | hx
      · exact Or.inr hop
      · exact Or.inl hx
      · exact Or.inr hx
    · rcases List.mem_cons.1 he' with rfl | he'
      · exact memberWrites_mono (Set.singleton_subset_iff.2 (hVU (Set.mem_insert op V))) he
      · exact hmem e' he'

/-- Merging the states of two sets gives the state of their union. -/
theorem StateOf.mergeState (h : StateOf V g γ st) (h' : StateOf W g γ st') :
    StateOf (V ∪ W) g γ (mergeState st st') := by
  have hentries : ∀ e ∈ st'.membershipControls.toList, e.2 ∈ memberWrites W e.1 := by
    intro e he
    exact (h'.controls e.1).mem e.2 (mem_toList_iff_getElem?_eq_some.1 he)
  obtain ⟨U, hVU, hU, hmem, hfold⟩ := h.putMembers _ hentries
  have hdom : ∀ {U'}, U ⊆ U' → ∀ p, ∀ e ∈ memberWrites (V ∪ W) p, ∃ w ∈ memberWrites U' p, e.1 ≤ w.1 := by
    intro U' hUU' p e he
    rw [memberWrites_union] at he
    rcases he with he | he
    · exact ⟨e, memberWrites_mono (hVU.trans hUU') he, le_rfl⟩
    · obtain ⟨w, hw, hle⟩ := (h'.controls p).le e he
      exact ⟨w, memberWrites_mono hUU' (hmem (p, w) (mem_toList_iff_getElem?_eq_some.2 hw)), hle⟩
  unfold Irokle.mergeState
  cases hpc : st'.replicationPolicyControl with
  | none =>
    refine hfold.of_dominated hU (hdom subset_rfl) fun e he => ?_
    rw [policyWrites_union] at he
    rcases he with he | he
    · exact ⟨e, policyWrites_mono hVU he, le_rfl⟩
    · have hnone := h'.policyControl
      rw [hpc] at hnone
      rw [hnone.eq_empty] at he
      exact absurd he (Set.notMem_empty e)
  | some e =>
    obtain ⟨k, policy⟩ := e
    obtain ⟨op, hop, rfl, hpay⟩ := h'.policyControl.mem _ hpc
    have hput := hfold.applyControl hpay
    have hsub : insert op U ⊆ V ∪ W := Set.insert_subset (Or.inr hop) hU
    refine hput.of_dominated hsub (hdom (Set.subset_insert op U)) fun e he => ?_
    rw [policyWrites_union] at he
    rcases he with he | he
    · exact ⟨e, policyWrites_mono (hVU.trans (Set.subset_insert op U)) he, le_rfl⟩
    · obtain ⟨w, hw, hle⟩ := h'.policyControl.le e he
      rw [hpc] at hw
      cases hw
      exact ⟨_, ⟨op, Set.mem_insert op U, rfl, hpay⟩, hle⟩

/-! ## The fold over a list -/

/-- The members left by applying each control once. -/
theorem mem_foldl_setMember (l : List (PeerId × ControlKey × Bool)) (hl : (l.map (·.1)).Nodup)
    (members : BTreeSet PeerId) :
    p ∈ l.foldl (fun members e => setMember members e.1 e.2.2) members ↔
      (∃ k, (p, k, true) ∈ l) ∨ (∀ e ∈ l, e.1 ≠ p) ∧ p ∈ members := by
  induction l generalizing members with
  | nil => simp
  | cons e l ih =>
    obtain ⟨q, k, b⟩ := e
    rw [List.map_cons, List.nodup_cons] at hl
    rw [List.foldl_cons, ih hl.2]
    have hq : ∀ c, (q, c) ∉ l := fun c hc => hl.1 (List.mem_map.2 ⟨_, hc, rfl⟩)
    by_cases hpq : p = q
    · subst hpq
      have hne : ∀ e ∈ l, e.1 ≠ p := fun e he h => hq e.2 (h ▸ he)
      cases b
      · simp [setMember, hq]
      · simp only [hq, setMember, if_true]
        simpa using fun a k => ⟨hne (a, k, false), hne (a, k, true)⟩
    · cases b <;> simp [setMember, hpq, Ne.symm hpq]

/-- What the fold of `materialize_topic_state` has collected from the ops `W`. -/
structure Collected (W : Set Op) (g : Op) (γ : TopicGenesis) (s : Materializing) : Prop where
  topicId : ∀ t ∈ s.topicId, t = g.body.topicId
  genesis : ∀ e ∈ s.genesis, e = (g.id, g.body.topicId, γ)
  found : g ∈ W → s.genesis.isSome
  controls : ∀ p : PeerId, IsLatest (memberWrites W p) s.memberControls[p]?
  policy : IsLatest (policyWrites W) s.policyControl

theorem Collected.start : Collected ∅ g γ {} where
  topicId := by simp
  genesis := by simp
  found := by simp
  controls p := by
    rw [memberWrites_empty]
    simpa using IsLatest.empty
  policy := by
    rw [policyWrites_empty]
    exact IsLatest.empty

/-- One op of the topic is collected without an error. -/
theorem Collected.step {s : Materializing} (h : Collected W g γ s) (hg : g.body.payload = .genesis γ)
    (htopic : op.body.topicId = g.body.topicId)
    (hgen : ∀ γ', op.body.payload = .genesis γ' → op.id = g.id ∧ γ' = γ) :
    ∃ s', s.step op = .ok s' ∧ Collected (insert op W) g γ s' := by
  have hno : ¬(s.topicId.any (fun t => decide (t ≠ op.body.topicId)) = true) := by
    cases ht : s.topicId with
    | none => simp
    | some t => simp [h.topicId t ht, htopic]
  have hseen : ∀ t ∈ some (s.topicId.getD op.body.topicId), t = g.body.topicId := by
    cases ht : s.topicId with
    | none => simp [htopic]
    | some t => simp [h.topicId t ht]
  have hfound : (∀ γ', op.body.payload ≠ .genesis γ') → g ∈ insert op W → s.genesis.isSome := by
    rintro hop (rfl | hmem)
    · exact absurd hg (hop γ)
    · exact h.found hmem
  unfold Materializing.step
  rw [refuseIf, if_neg hno, Outcome.ok_bind]
  cases hpay : op.body.payload with
  | genesis γ' =>
    obtain ⟨hid, rfl⟩ := hgen γ' hpay
    have hsame : ¬(s.genesis.any (fun e => decide (e.1 ≠ op.id)) = true) := by
      cases hs : s.genesis with
      | none => simp
      | some e => simp [h.genesis e hs, hid]
    dsimp only
    rw [refuseIf, if_neg hsame, Outcome.ok_bind]
    refine ⟨_, rfl, hseen, ?_, by simp, fun p => ?_, ?_⟩
    · cases hs : s.genesis with
      | none => simp [hid, htopic]
      | some e => simp [h.genesis e hs]
    · rw [memberWrites_insert_other (by simp [hpay]) (by simp [hpay])]
      exact h.controls p
    · rw [policyWrites_insert_other (by simp [hpay])]
      exact h.policy
  | event envelope =>
    refine ⟨_, rfl, hseen, h.genesis, hfound (by simp [hpay]), fun p => ?_, ?_⟩
    · rw [memberWrites_insert_other (by simp [hpay]) (by simp [hpay])]
      exact h.controls p
    · rw [policyWrites_insert_other (by simp [hpay])]
      exact h.policy
  | control control =>
    cases control with
    | addPeer peer =>
      refine ⟨_, rfl, hseen, h.genesis, hfound (by simp [hpay]), fun p => ?_, ?_⟩
      · rw [setMembershipControl_getElem?, memberWrites_insert_add hpay]
        split
        · exact (h.controls p).put
        · exact h.controls p
      · rw [policyWrites_insert_other (by simp [hpay])]
        exact h.policy
    | removePeer peer =>
      refine ⟨_, rfl, hseen, h.genesis, hfound (by simp [hpay]), fun p => ?_, ?_⟩
      · rw [setMembershipControl_getElem?, memberWrites_insert_remove hpay]
        split
        · exact (h.controls p).put
        · exact h.controls p
      · rw [policyWrites_insert_other (by simp [hpay])]
        exact h.policy
    | setReplicationPolicy policy =>
      have hmem : ∀ p, memberWrites (insert op W) p = memberWrites W p := fun p =>
        memberWrites_insert_other (by simp [hpay]) (by simp [hpay])
      have hput := h.policy.put (e := (controlKey op, policy))
      rw [← policyWrites_insert_policy hpay] at hput
      dsimp only
      cases hc : s.policyControl with
      | none =>
        rw [hc] at hput
        exact ⟨_, rfl, hseen, h.genesis, hfound (by simp [hpay]), fun p => hmem p ▸ h.controls p, hput⟩
      | some current =>
        rw [hc] at hput
        by_cases hlt : current.1 < controlKey op
        · simp only [put, hlt, if_true] at hput
          simp only [Option.all_some, hlt, decide_true, if_true]
          exact ⟨_, rfl, hseen, h.genesis, hfound (by simp [hpay]), fun p => hmem p ▸ h.controls p, hput⟩
        · simp only [put, hlt, if_false] at hput
          simp only [Option.all_some, hlt, decide_false, Bool.false_eq_true, if_false]
          exact ⟨_, rfl, hseen, h.genesis, hfound (by simp [hpay]), fun p => hmem p ▸ h.controls p, hc ▸ hput⟩

/-- **The fold over the ops of one branch, in any order, is their state.** -/
theorem materializeTopicState_stateOf {l : List Op} (hg : g.body.payload = .genesis γ) (hmem : g ∈ l)
    (htopic : ∀ op ∈ l, op.body.topicId = g.body.topicId)
    (hgen : ∀ op ∈ l, ∀ γ', op.body.payload = .genesis γ' → op.id = g.id ∧ γ' = γ) (heads : BTreeSet OpId) :
    ∃ st, materializeTopicState l heads = .ok st ∧ StateOf {op | op ∈ l} g γ st ∧ st.heads = heads := by
  have hstart : Collected {op | op ∈ ([] : List Op)} g γ {} := by
    simpa using Collected.start
  have hfold : Outcome.Post (l.foldlM Materializing.step {}) (Collected {op | op ∈ l} g γ) fun _ => False := by
    refine Outcome.Post.foldlM (fun done s => Collected {op | op ∈ done} g γ s) hstart ?_
    intro done op rest s hl hP
    have hop : op ∈ l := by simp [hl]
    obtain ⟨s', hs', hP'⟩ := hP.step hg (htopic op hop) (hgen op hop)
    have hset : {x | x ∈ done ++ [op]} = insert op {x | x ∈ done} := by
      ext x
      simp [or_comm]
    rw [hs', hset]
    exact hP'
  obtain ⟨s, hrun, hs⟩ := hfold.total
  obtain ⟨e, he⟩ := Option.isSome_iff_exists.1 (hs.found hmem)
  obtain rfl := hs.genesis e he
  unfold materializeTopicState
  rw [hrun, Outcome.ok_bind, he]
  refine ⟨_, rfl, ⟨rfl, rfl, rfl, hs.controls, hs.policy, fun p => ?_, rfl⟩, rfl⟩
  have hnodup : (s.memberControls.toList.map (·.1)).Nodup := by
    rw [List.Nodup, List.pairwise_map]
    exact distinct_keys_toList.imp fun h => by simpa using h
  rw [mem_foldl_setMember _ hnodup]
  simp only [mem_toList_iff_getElem?_eq_some, Prod.forall]
  cases hc : s.memberControls[p]? with
  | none =>
    have hne : ∀ q k b, s.memberControls[q]? = some (k, b) → q ≠ p := by
      rintro q k b hq rfl
      rw [hc] at hq
      cases hq
    simp only [reduceCtorEq, exists_false, false_or]
    exact ⟨fun h => h.2, fun h => ⟨fun q k b => hne q k b, h⟩⟩
  | some e =>
    obtain ⟨k, b⟩ := e
    cases b
    · simp only [Option.some.injEq, Prod.mk.injEq, Bool.false_eq_true, and_false, exists_false,
        false_or, iff_false, not_and]
      exact fun h => absurd rfl (h p k false hc)
    · simp

end Irokle
