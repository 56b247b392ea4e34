import Irokle.Proof.Converge
import Irokle.Proof.Drain
import Irokle.Proof.Evidence

/-!
# What replicas tell from each other's frontier

Two nodes compare heads, fingerprints and clocks, never histories. In reachable stores each of them
says what the comparison of the histories would.

* `frontier_exact` — equal heads or fingerprints mean one history;
* `clocks_exact` — a clock says which ops of another store are missing;
* `stored_authorized` — whatever brought an op into a store, its author was a member;
* `reconcile_returns` — the passes over the buffer end.
-/

namespace Irokle

open Std Outcome Causal

variable {E E' : Env} {a b log : Oplog} {r r' : Records} {t : TopicId} {op : Op}

/-- The ops of a topic that a store holds. -/
abbrev Oplog.held (log : Oplog) (t : TopicId) : Set Op := log.inner.toRecords.admitted t

/-- The fingerprints of two stores are equal only for equal heads. -/
def Distinguished (E E' : Env) (a b : Oplog) (t : TopicId) : Prop :=
  a.inner.topicFingerprintOf E t = b.inner.topicFingerprintOf E' t → a.inner.headsOf t = b.inner.headsOf t

/-! ## Two stores -/

/-- The ops of a topic are those below its heads. -/
theorem RecordsOK.below_heads (R : RecordsOK E r) (t : TopicId) : E.below (r.headsOf t) = r.admitted t := by
  cases hst : r.topicState t with
  | some st =>
    obtain ⟨g, γ, B, -⟩ := R.state t st hst
    exact B.below_eq_of_heads (R.finite t) (R.heads t)
  | none =>
    have hnone := R.noState t hst
    refine (Set.eq_empty_of_forall_notMem ?_).trans hnone.symm
    rintro x ⟨y, -, hy, -⟩
    obtain ⟨z, hz, -⟩ := (R.heads t _).1 hy
    exact Set.notMem_empty z (hnone ▸ hz.1)

theorem RecordsOK.admitted_of_heads (R : RecordsOK E r) (R' : RecordsOK E r') (h : r.headsOf t = r'.headsOf t) :
    r.admitted t = r'.admitted t := by
  rw [← R.below_heads, ← R'.below_heads, h]

/-- A fingerprint is recorded only where it is the one of the topic. -/
theorem RecordsOK.recordFingerprint_eq {inner : MemoryInner} (R : RecordsOK E inner.toRecords)
    {reserve : ℕ → Result Unit} {member : PeerId} {print : Digest} {v : Evidence}
    (h : recordFingerprint E reserve inner true member t print = .ok (true, v)) :
    inner.topicFingerprintOf E t = print := by
  obtain ⟨ack, hack, hrest⟩ := bind_eq_ok.1 h
  obtain ⟨-, -, st, -, hfrontier, -⟩ := frontierAck_backed R hack
  obtain ⟨hheads, hclock⟩ := hfrontier rfl
  split at hrest
  · cases hrest
  · rename_i heq
    rw [not_not, hheads, hclock] at heq
    exact (R.fingerprint t).trans heq

/-- **Heads, fingerprint and history tell the same.** Two reachable stores of one scheme hold the same ops of
a topic exactly when its heads are equal, exactly when its fingerprints are, and whenever one records the
fingerprint of the other as matched. Then everything reads alike. -/
theorem frontier_exact (hE : E.SameScheme E') (ha : Reached E a) (hb : Reached E' b)
    (hprints : Distinguished E E' a b t) :
    (a.inner.headsOf t = b.inner.headsOf t ↔ a.held t = b.held t) ∧
    (a.inner.topicFingerprintOf E t = b.inner.topicFingerprintOf E' t ↔ a.held t = b.held t) ∧
    (∀ reserve member v, recordFingerprint E reserve a.inner true member t (b.inner.topicFingerprintOf E' t) =
      .ok (true, v) → a.held t = b.held t) ∧
    (a.held t = b.held t → a.inner.toRecords.SameReads E E' t b.inner.toRecords) := by
  have R := ha.logOK.records
  have R' := hb.logOK.records.transfer hE.symm
  have hreads : a.held t = b.held t → a.inner.toRecords.SameReads E E' t b.inner.toRecords := by
    intro h
    obtain ⟨hheads, hclock, hstate, hprint, hmetas⟩ := R.sameReads R' h
    refine ⟨hheads, hclock, hstate, ?_, hmetas⟩
    unfold Records.topicFingerprintOf at hprint ⊢
    rw [hprint, hE.topicFingerprintFor]
  have hheld := R.admitted_of_heads R' (t := t)
  exact ⟨⟨hheld, fun h => (hreads h).heads⟩, ⟨fun h => hheld (hprints h), fun h => (hreads h).fingerprint⟩,
    fun _ _ _ h => hheld (hprints (R.recordFingerprint_eq h)), hreads⟩

/-- A node that received the ops at once. -/
def pairWhole : Oplog :=
  let n := (Node.fresh (IdType.ofNat 2) .memory).run pairEnv [{ op := .receiveOps none pairOps none }]
  n.oplog n.storage.inner

theorem pairWhole_reached : Reached pairEnv pairWhole := Reached.active _ _ _

theorem pairWhole_heads : pairLog.inner.headsOf (IdType.ofNat 1) = pairWhole.inner.headsOf (IdType.ofNat 1) := by
    decide +kernel

theorem frontier_exact_pair : pairLog.held (IdType.ofNat 1) = pairWhole.held (IdType.ofNat 1) :=
  (frontier_exact ⟨rfl, rfl, rfl, rfl⟩ pairLog_reached pairWhole_reached fun _ => pairWhole_heads).1.1
    pairWhole_heads

/-- **A clock says what is missing.** While no actor writes one position twice, an op of one store is held by
another exactly when the other's clock counts its position, and clocks compare as the sets of held ops do. -/
theorem clocks_exact (ha : Reached E a) (hb : Reached E' b) (hslots : ∀ x ∈ a.held t, ∀ y ∈ b.held t,
      x.body.actorId = y.body.actorId → x.body.actorSeq = y.body.actorSeq → x = y) :
    (∀ x ∈ a.held t, x ∈ b.held t ↔ x.body.actorSeq ≤ (b.inner.clockOf t).get x.body.actorId) ∧
    ((∀ c, (a.inner.clockOf t).get c ≤ (b.inner.clockOf t).get c) ↔ a.held t ⊆ b.held t) := by
  have R := ha.logOK.records
  have R' := hb.logOK.records
  have hheld : ∀ x ∈ a.held t, x ∈ b.held t ↔ x.body.actorSeq ≤ (b.inner.clockOf t).get x.body.actorId := by
    intro x hx
    have h1 : 1 ≤ x.body.actorSeq := (R.chained t x hx).1
    refine ⟨fun h => (R'.clock t _ _ h1).2 ⟨x, h, rfl, rfl⟩, fun h => ?_⟩
    obtain ⟨y, hy, hactor, hseq⟩ := (R'.clock t _ _ h1).1 h
    rwa [hslots x hx y hy hactor.symm hseq.symm]
  refine ⟨hheld, fun h x hx => (hheld x hx).2 ?_, fun h c => ?_⟩
  · exact ((R.clock t _ _ (R.chained t x hx).1).2 ⟨x, hx, rfl, rfl⟩).trans (h _)
  · -- the last position the clock counts is that of an op
    rcases Nat.eq_zero_or_pos ((a.inner.clockOf t).get c) with h0 | hpos
    · omega
    · obtain ⟨x, hx, rfl, hseq⟩ := (R.clock t c _ hpos).1 le_rfl
      rw [← hseq]
      exact (hheld x hx).1 (h hx)

theorem pairMerge_held : pairMerge ∈ pairLog.held (IdType.ofNat 1) :=
  ⟨show pairLog.inner.ops[pairMerge.id]? = some pairMerge by decide +kernel, by decide +kernel⟩

theorem clocks_exact_pair : pairMerge ∈ pairWhole.held (IdType.ofNat 1) := by
  have R := pairLog_reached.logOK.records
  have hheld := R.admitted_of_heads pairWhole_reached.logOK.records pairWhole_heads
  have hclock := clocks_exact pairLog_reached pairWhole_reached fun _ hx _ hy => R.slots_eq hx (hheld.superset hy)
  exact (hclock.1 _ pairMerge_held).2 (by decide +kernel)

/-! ## Every stored op -/

/-- **Whatever brought it, a stored op was authorised**: it is valid and written under its author's own actor,
and it is the genesis of the branch or the fold over its ancestry lists its author. -/
theorem stored_authorized (h : Reached E log) (hop : op ∈ log.held t) :
    E.Valid op ∧ op.body.actorId = E.actorIdFor t op.body.author ∧ ∃ st, log.inner.topicState t = some st ∧
      (op.id = st.genesis ∧ isStructuralGenesis op = true ∨ AncestrySays E op True) := by
  have R := h.logOK.records
  obtain ⟨-, -, st, hst, -⟩ := R.branch_of_mem hop
  obtain ⟨g, γ, B, hstate⟩ := R.state t st hst
  have hlinks := B.links op hop
  refine ⟨hlinks.valid, hop.2 ▸ hlinks.actor, st, hst, ?_⟩
  by_cases hne : op = g
  · exact Or.inl ⟨by rw [hstate.genesis, hne], hne ▸ B.structural⟩
  · have hauthored := B.authored op hop hne
    obtain ⟨st', hst', hin⟩ := hauthored.member
    have hsays := ancestrySays_of_stateOf B (R.finite t) hlinks.valid (R.closed t op hop) hauthored.deps hst'
    exact Or.inr (eq_true hin ▸ hsays)

theorem stored_authorized_pair : pairEnv.Valid pairMerge := (stored_authorized pairLog_reached pairMerge_held).1

/-- **The passes over the buffer return** and leave the indexes exact. -/
theorem reconcile_returns (h : Reached E log) (V : View) :
    ∃ res log', reconcilePendingOps E V log = some (res, log') ∧ ∀ t, Structured log'.inner.toRecords t := by
  have hfuel := card_drainPool_le log []
  obtain ⟨res, log', hrun, L⟩ :=
    reconcilePasses_spec V (log.inner.pendingRecords.size + 2) ∅ h.logOK (by simp at hfuel; omega)
  exact ⟨res, log', hrun, L.records.structured⟩

/-- The node of `shortRun` after a drain that could not store the op the genesis made ready. -/
def leftNode : Node :=
  (Node.fresh (IdType.ofNat 1) .memory).run shortEnv (shortRun ++ [{ op := .receiveOps none [pairGenesis] none }])

/-- Its oplog. -/
def leftLog : Oplog := leftNode.oplog leftNode.storage.inner

theorem leftLog_reached : Reached shortEnv leftLog := by
  unfold leftLog leftNode
  exact Reached.active _ _ _

/-- The next pass admits the op that was left ready. -/
theorem reconcile_returns_left : pairEvent.id ∈ leftLog.inner.pendingReady ∧
    ∃ res log', reconcilePendingOps shortEnv {} leftLog = some (res, log') ∧ log'.inner.ops[pairEvent.id]? =
      some pairEvent ∧ ∀ t, Structured log'.inner.toRecords t := by
  have hready : pairEvent.id ∈ leftLog.inner.pendingReady := by decide +kernel
  have hrun : (reconcilePendingOps shortEnv {} leftLog).any (fun out =>
      decide (out.2.inner.ops[pairEvent.id]? = some pairEvent)) = true := by decide +kernel
  obtain ⟨res, log', h, hstructured⟩ := reconcile_returns leftLog_reached {}
  rw [h, Option.any_some, decide_eq_true_eq] at hrun
  exact ⟨hready, res, log', h, hrun, hstructured⟩

end Irokle
