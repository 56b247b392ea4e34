import Irokle.Proof.Reachable

/-!
# Merging projections

The state at an op is the fold over it and its ancestors. Merging such states is the fold over the
union of the ancestries, because a state is determined by the ops it stands for.

* `CausalState.stateOf` — the state at an op, as the state of its ancestry;
* `mergeStates_homomorphism` — `merge_states` over some ops of a reachable store is the fold over the
  union of their ancestries, and merging is commutative, associative and idempotent.
-/

namespace Irokle

open Std Outcome Causal

variable {E : Env} {log : Oplog} {t : TopicId} {S : Set Op} {g x y z : Op} {γ : TopicGenesis} {a b c : TopicState}
  {ids : List OpId} {ps : Projections} {ops : List Op}

/-- The state at an op of a history: the fold over it and its ancestors, listed in some order. -/
def CausalState (S : Set Op) (x : Op) (st : TopicState) : Prop :=
  ∃ ops heads, (∀ y, y ∈ ops ↔ y = x ∨ opShape.Anc S y x) ∧ materializeTopicState ops heads = .ok st

/-- Two states that differ at most in their heads. -/
def SameState (a b : TopicState) : Prop := { a with heads := b.heads } = b

/-- A fold over ops of a branch that holds its genesis is their state. -/
theorem Branch.materialized (B : Branch E g γ S) (hops : ∀ y ∈ ops, y ∈ S) (hg : g ∈ ops)
    (heads : BTreeSet OpId) :
    ∃ st, materializeTopicState ops heads = .ok st ∧ StateOf {y | y ∈ ops} g γ st ∧ st.heads = heads := by
  refine materializeTopicState_stateOf B.payload hg (fun op hop => B.topic op (hops op hop)) ?_ heads
  intro op hop γ' hpay
  obtain rfl := B.eq_root_of_payload (hops op hop) hpay
  rw [B.payload] at hpay
  cases hpay
  exact ⟨rfl, rfl⟩

/-- An op of a branch and its ancestors hold the genesis. -/
theorem Branch.root_mem_insert (B : Branch E g γ S) (hx : x ∈ S) : g ∈ Insert.insert x (E.past x) := by
  by_cases hxg : x = g
  · exact Or.inl hxg.symm
  · exact Or.inr (B.root_mem_past hx hxg)

theorem Branch.insert_past_subset (B : Branch E g γ S) (hx : x ∈ S) : Insert.insert x (E.past x) ⊆ S := by
  rintro y (rfl | hy)
  · exact hx
  · exact B.past_subset hx hy

theorem CausalState.stateOf (B : Branch E g γ S) (hx : x ∈ S) (h : CausalState S x a) :
    StateOf (insert x (E.past x)) g γ a := by
  obtain ⟨ops, heads, hops, hrun⟩ := h
  have hset : {y | y ∈ ops} = insert x (E.past x) := by
    rw [B.past_eq hx]
    exact Set.ext hops
  obtain ⟨st, hrun', hstate, -⟩ := B.materialized
    (fun y hy => B.insert_past_subset hx (hset ▸ (hy : y ∈ {y | y ∈ ops})))
    (by have := B.root_mem_insert hx; rwa [← hset] at this) heads
  obtain rfl : st = a := by rw [hrun] at hrun'; exact (Except.ok.inj hrun').symm
  rwa [hset] at hstate

/-- Every op of a finite history has its state. -/
theorem Branch.exists_causalState (B : Branch E g γ S) (hfin : S.Finite) (hx : x ∈ S) :
    ∃ st, CausalState S x st := by
  have hset : Insert.insert x (E.past x) = {y | y = x ∨ opShape.Anc S y x} := by
    rw [B.past_eq hx]
    rfl
  have hanc : {y | y = x ∨ opShape.Anc S y x}.Finite := hfin.subset (hset ▸ B.insert_past_subset hx)
  have hmem : ∀ y, y ∈ hanc.toFinset.toList ↔ y = x ∨ opShape.Anc S y x := by simp
  have hroot : g ∈ hanc.toFinset.toList := by
    have hg := B.root_mem_insert hx
    rw [hset] at hg
    exact (hmem g).2 hg
  obtain ⟨st, hst, -⟩ := B.materialized
    (fun y hy => B.insert_past_subset hx (by rw [hset]; exact (hmem y).1 hy)) hroot ∅
  exact ⟨st, _, ∅, hmem, hst⟩

/-- States of one set of ops of a branch agree. -/
theorem Branch.sameState {V : Set Op} (B : Branch E g γ S) (hV : V ⊆ S) (ha : StateOf V g γ a)
    (hb : StateOf V g γ b) :
    SameState a b :=
  ha.ext (B.injOn.mono hV) hb

/-- Merging the states at some ops is the fold over the union of their ancestries. -/
theorem Branch.mergeStates_eq (B : Branch E g γ S) (hne : ids ≠ []) (hids : ∀ id ∈ ids, ∃ x ∈ S, x.id = id)
    (hps : ∀ x ∈ S, x.id ∈ ids → ∃ st, ps[x.id]? = some st ∧ CausalState S x st)
    (hops : ∀ y, y ∈ ops ↔ ∃ x ∈ S, x.id ∈ ids ∧ (y = x ∨ opShape.Anc S y x)) (heads : BTreeSet OpId) :
    ∃ merged, mergeStates ps ids none = .ok merged ∧
      materializeTopicState ops heads = .ok { merged with heads := heads } := by
  have hknown : Known E g γ ps ids := by
    intro id hid
    obtain ⟨x, hx, rfl⟩ := hids id hid
    obtain ⟨st, hst, hcausal⟩ := hps x hx hid
    exact ⟨st, x, hst, B.valid hx, rfl, hcausal.stateOf B hx⟩
  have hset : {y | y ∈ ops} = E.belowList ids := by
    ext y
    rw [Set.mem_ofPred_eq, hops]
    constructor
    · rintro ⟨x, hx, hid, hy⟩
      refine ⟨x, B.valid hx, hid, ?_⟩
      rwa [B.past_eq hx]
    · rintro ⟨x, hx, hid, hy⟩
      obtain ⟨x', hx', heq⟩ := hids x.id hid
      obtain rfl := (B.valid hx').eq_of_id hx heq
      refine ⟨x', hx', hid, ?_⟩
      rwa [B.past_eq hx'] at hy
  have hsub : E.belowList ids ⊆ S := by
    intro y hy
    rw [← hset, Set.mem_ofPred_eq, hops] at hy
    obtain ⟨x, hx, -, rfl | hy⟩ := hy
    · exact hx
    · exact hy.mem_left
  obtain ⟨merged, hrun, hmerged⟩ : ∃ merged, mergeStates ps ids none = .ok merged ∧
      StateOf (E.belowList ids) g γ merged := by
    have hpost := mergeStates_none hknown hne
    cases hm : mergeStates ps ids none with
    | error e => rw [hm] at hpost; exact hpost.elim
    | ok merged => rw [hm] at hpost; exact ⟨merged, rfl, hpost⟩
  have hroot : g ∈ ops := by
    obtain ⟨id, hid⟩ := List.exists_mem_of_ne_nil ids hne
    obtain ⟨x, hx, rfl⟩ := hids id hid
    have hg := B.root_mem_insert hx
    rw [B.past_eq hx] at hg
    exact (hops g).2 ⟨x, hx, hid, hg⟩
  obtain ⟨st, hst, hstate, hheads⟩ := B.materialized
    (fun y hy => hsub (hset ▸ (hy : y ∈ {y | y ∈ ops}))) hroot heads
  rw [hset] at hstate
  refine ⟨merged, hrun, ?_⟩
  rw [hst, ← B.sameState hsub hmerged hstate, hheads]

/-- **Merging projections is a homomorphism.** In a reachable store, merging the states at some ops of
a topic, in any order and however their ancestries overlap, is the fold over the union of the
ancestries; so merging is commutative, associative and idempotent on such states. -/
theorem mergeStates_homomorphism (h : Reached E log) (t : TopicId) :
    let S := log.inner.toRecords.admitted t
    (∀ (ids : List OpId) (ps : Projections) (ops : List Op) (heads : BTreeSet OpId), ids ≠ [] →
      (∀ id ∈ ids, ∃ x ∈ S, x.id = id) →
      (∀ x ∈ S, x.id ∈ ids → ∃ st, ps[x.id]? = some st ∧ CausalState S x st) →
      (∀ y, y ∈ ops ↔ ∃ x ∈ S, x.id ∈ ids ∧ (y = x ∨ opShape.Anc S y x)) →
      ∃ merged, mergeStates ps ids none = .ok merged ∧
        materializeTopicState ops heads = .ok { merged with heads := heads }) ∧
    ∀ x ∈ S, ∀ y ∈ S, ∀ z ∈ S, ∀ a b c, CausalState S x a → CausalState S y b → CausalState S z c →
      SameState (mergeState a b) (mergeState b a) ∧
      SameState (mergeState (mergeState a b) c) (mergeState a (mergeState b c)) ∧
      SameState (mergeState a a) a := by
  intro S
  have R := h.logOK.records
  refine ⟨fun ids ps ops heads hne hids hps hops => ?_, fun x hx y hy z hz a b c ha hb hc => ?_⟩
  · obtain ⟨id, hid⟩ := List.exists_mem_of_ne_nil ids hne
    obtain ⟨x, hx, -⟩ := hids id hid
    obtain ⟨g, γ, -, -, B⟩ := R.branch_of_mem hx
    exact B.mergeStates_eq hne hids hps hops heads
  · obtain ⟨g, γ, -, -, B⟩ := R.branch_of_mem hx
    have hA := ha.stateOf B hx
    have hB := hb.stateOf B hy
    have hC := hc.stateOf B hz
    have hxS := B.insert_past_subset hx
    have hyS := B.insert_past_subset hy
    have hzS := B.insert_past_subset hz
    refine ⟨?_, ?_, ?_⟩
    · have hba := hB.mergeState hA
      rw [Set.union_comm] at hba
      exact B.sameState (Set.union_subset hxS hyS) (hA.mergeState hB) hba
    · have hright := hA.mergeState (hB.mergeState hC)
      rw [← Set.union_assoc] at hright
      exact B.sameState (Set.union_subset (Set.union_subset hxS hyS) hzS)
        ((hA.mergeState hB).mergeState hC) hright
    · have haa := hA.mergeState hA
      rw [Set.union_self] at haa
      exact B.sameState hxS haa hA

/-- The state that knows both the event of peer 2 and its removal. -/
theorem mergeStates_homomorphism_pair :
    ∃ ps ops merged, mergeStates ps [pairEvent.id, pairRemoval.id] none = .ok merged ∧ pairGenesis ∈ ops ∧
      pairEvent ∈ ops ∧ pairRemoval ∈ ops ∧
    materializeTopicState ops ∅ = .ok { merged with heads := ∅ } := by
  obtain ⟨γ, B⟩ := pair_branch
  have hS := pairLog_admitted
  have hfin : {op | op ∈ pairOps}.Finite := List.finite_toSet pairOps
  have hevent : pairEvent ∈ {op | op ∈ pairOps} := by simp [pairOps]
  have hremoval : pairRemoval ∈ {op | op ∈ pairOps} := by simp [pairOps]
  obtain ⟨a, ha⟩ := B.exists_causalState hfin hevent
  obtain ⟨b, hb⟩ := B.exists_causalState hfin hremoval
  set S := {op | op ∈ pairOps} with hSdef
  set ids := [pairEvent.id, pairRemoval.id] with hidsdef
  have hne : pairEvent.id ≠ pairRemoval.id := by decide
  have hclass : ∀ x ∈ S, x.id ∈ ids → x = pairEvent ∨ x = pairRemoval := by
    intro x hx hid
    rcases List.mem_cons.1 hid with h | h
    · exact Or.inl (B.injOn hx hevent h)
    · exact Or.inr (B.injOn hx hremoval (List.mem_singleton.1 h))
  have hunion : {y | ∃ x ∈ S, x.id ∈ ids ∧ (y = x ∨ opShape.Anc S y x)}.Finite := by
    refine hfin.subset ?_
    rintro y ⟨x, hx, -, rfl | hy⟩
    · exact hx
    · exact hy.mem_left
  have hmem : ∀ y, y ∈ hunion.toFinset.toList ↔ ∃ x ∈ S, x.id ∈ ids ∧ (y = x ∨ opShape.Anc S y x) := by simp
  set ps : Projections := ((∅ : Projections).insert pairEvent.id a).insert pairRemoval.id b
  have hfirst : ps[pairEvent.id]? = some a := by
    rw [ExtTreeMap.getElem?_insert, if_neg (by simpa using hne.symm)]
    simp
  obtain ⟨merged, hrun, hfold⟩ := (mergeStates_homomorphism pairLog_reached (IdType.ofNat 1)).1
    ids ps hunion.toFinset.toList ∅ (by simp [hidsdef]) (by
      rw [hS]
      intro id hid
      rcases List.mem_cons.1 hid with rfl | hid
      · exact ⟨pairEvent, hevent, rfl⟩
      · exact ⟨pairRemoval, hremoval, (List.mem_singleton.1 hid).symm⟩) (by
      rw [hS]
      intro x hx hid
      rcases hclass x hx hid with rfl | rfl
      · exact ⟨a, hfirst, ha⟩
      · exact ⟨b, by simp [ps], hb⟩) (by rw [hS]; exact hmem)
  have hroot : pairGenesis ∈ Insert.insert pairEvent (pairEnv.past pairEvent) := B.root_mem_insert hevent
  rw [B.past_eq hevent] at hroot
  refine ⟨ps, _, merged, hrun, (hmem _).2 ⟨pairEvent, hevent, by simp [hidsdef], hroot⟩,
    (hmem _).2 ⟨pairEvent, hevent, by simp [hidsdef], Or.inl rfl⟩,
    (hmem _).2 ⟨pairRemoval, hremoval, by simp [hidsdef], Or.inl rfl⟩, hfold⟩

end Irokle
