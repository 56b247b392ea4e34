import Irokle.Proof.Node

/-!
# What holds of every reachable store

A reachable node keeps `RecordsOK` for its active records and for those of every namespace, so what
`RecordsOK` says can be read off wherever a handle can look.

* `store_structure` — the indexes of a topic describe its ops;
* `observedClock_exact` — an observed clock counts exactly the ancestors of its op;
* `topicState_materialized` — the stored state is the fold over the admitted ops, in any order;
* `receive_exact` — a receive reports what it stored and reset, and an error means that nothing was;
* `authorization_exact` — the member set a batch consults answers like the fold over the ancestry.
-/

namespace Irokle

open Std Outcome Causal

/-- `log` is the oplog of a reachable node over its active records or over those of a view. -/
def Reached (E : Env) (log : Oplog) : Prop :=
  ∃ peer limits evs view inner, ((Node.fresh peer limits).run E evs).storage.lock view = .ok inner ∧
    log = ((Node.fresh peer limits).run E evs).oplog inner

variable {E : Env} {V : View} {K : Prop} {P : Op → Prop} {log : Oplog} {r : Records} {t : TopicId} {op x : Op}
  {m : OpMeta} {st : TopicState}

theorem LogOK.weaken (L : LogOK E K P log) : LogOK E False P log :=
  ⟨L.records, ⟨L.buffer.ok, False.elim, False.elim⟩, L.cache, L.pending, L.waits, L.apart⟩

theorem Reached.logOK (h : Reached E log) : LogOK E False (fun _ => True) log := by
  obtain ⟨peer, limits, evs, view, inner, hlock, rfl⟩ := h
  have H : NodeOK E ((Node.fresh peer limits).run E evs) := nodeOK_run peer limits evs
  cases view with
  | none =>
    cases hlock
    exact H.main
  | some v =>
    unfold MemoryStorage.lock at hlock
    dsimp only at hlock
    split at hlock
    · rename_i ns hns
      cases hlock
      exact (H.staged _ _ (MemoryStorage.viewed_eq_some.1 hns).1).weaken
    · cases hlock

/-! ## A run to look at

Peer 1 founds a topic with peer 2, which writes to it while peer 1 removes it; the ops arrive in
three calls, the last of them first. -/

/-- Peer 1 founds the topic with peer 2. -/
def pairGenesis : Op :=
  tableOp 1 1 1 none [] 0 (.genesis ⟨"note", ExtTreeSet.ofList [IdType.ofNat 1, IdType.ofNat 2] compare, ⟨∅, 8⟩⟩)

/-- Peer 2 writes to it. -/
def pairEvent : Op := tableOp 2 2 1 none [1] 1 (.event ⟨"note", []⟩)

/-- Peer 1 removes peer 2. -/
def pairRemoval : Op := tableOp 3 1 2 (some 1) [1] 1 (.control (.removePeer (IdType.ofNat 2)))

/-- Peer 1 saw both. -/
def pairMerge : Op := tableOp 4 1 3 (some 3) [2, 3] 2 (.event ⟨"note", []⟩)

/-- What peer 2 writes once it saw its removal. -/
def pairLate : Op := tableOp 5 2 2 (some 2) [2, 3] 2 (.event ⟨"note", []⟩)

/-- The environment that knows the five ops. -/
def pairEnv : Env := Env.ofTable ([pairGenesis, pairEvent, pairRemoval, pairMerge, pairLate].map (·.signed))

/-- The first four ops in three calls. -/
def pairRun : List NodeEvent :=
  [{ op := .receiveOps none [pairMerge, pairRemoval] none }, { op := .receiveOps none [pairEvent] none },
    { op := .receiveOps none [pairGenesis] none }]

/-- The node after the calls. -/
def pairNode : Node := (Node.fresh (IdType.ofNat 1) .memory).run pairEnv pairRun

/-- The oplog over the active records. -/
def pairLog : Oplog := pairNode.oplog pairNode.storage.inner

theorem Reached.active (peer : PeerId) (limits : StagingLimits) (evs : List NodeEvent) :
    Reached E (((Node.fresh peer limits).run E evs).oplog ((Node.fresh peer limits).run E evs).storage.inner) :=
  ⟨peer, limits, evs, none, _, rfl, rfl⟩

theorem pairLog_reached : Reached pairEnv pairLog := by
  unfold pairLog pairNode
  exact Reached.active _ _ _

/-- The ops of the run, without what peer 2 writes after its removal. -/
def pairOps : List Op := [pairGenesis, pairEvent, pairRemoval, pairMerge]

theorem pairLog_admitted : pairLog.inner.toRecords.admitted (IdType.ofNat 1) = {op | op ∈ pairOps} := by
  have hlist : pairLog.inner.ops.toList = pairOps.map fun op => (op.id, op) := by decide +kernel
  have htopic : ∀ op ∈ pairOps, op.body.topicId = IdType.ofNat 1 := by decide +kernel
  ext op
  have hget : pairLog.inner.ops[op.id]? = some op ↔ op ∈ pairOps := by
    rw [← ExtTreeMap.mem_toList_iff_getElem?_eq_some, hlist, List.mem_map]
    constructor
    · rintro ⟨x, hx, heq⟩
      rwa [← (Prod.mk.inj heq).2]
    · intro h
      exact ⟨op, h, rfl⟩
  constructor
  · intro h
    exact hget.1 h.1
  · intro h
    exact ⟨hget.2 h, htopic op h⟩

theorem pair_branch : ∃ γ, Branch pairEnv pairGenesis γ {op | op ∈ pairOps} := by
  have hroot : pairGenesis ∈ pairLog.inner.toRecords.admitted (IdType.ofNat 1) := by
    rw [pairLog_admitted]
    exact List.mem_cons_self
  obtain ⟨g, γ, -, -, B⟩ := pairLog_reached.logOK.records.branch_of_mem hroot
  have honly : ∀ op ∈ pairOps, isStructuralGenesis op = true → op = pairGenesis := by decide +kernel
  rw [pairLog_admitted] at B
  obtain rfl := honly g B.root B.structural
  exact ⟨γ, B⟩

/-! ## Indexes -/

/-- The position of an actor's tip, 0 without one. -/
def Records.tipSeq (r : Records) (t : TopicId) (a : ActorId) : ℕ := (r.actorTip[(t, a)]?.map (·.1)).getD 0

/-- The indexes of a topic describe its ops. -/
structure Structured (r : Records) (t : TopicId) : Prop where
  deps : ∀ op ∈ r.admitted t, ∀ d ∈ op.body.deps, ∃ x ∈ r.admitted t, x.id = d
  seqs : ∀ a s, (∃ op ∈ r.admitted t, op.body.actorId = a ∧ op.body.actorSeq = s) ↔ 1 ≤ s ∧ s ≤ r.tipSeq t a
  prev : ∀ op ∈ r.admitted t, 1 < op.body.actorSeq → ∃ x ∈ r.admitted t, op.body.actorPrev = some x.id ∧
    x.id ∈ op.body.deps ∧ x.body.actorId = op.body.actorId ∧ x.body.actorSeq + 1 = op.body.actorSeq
  slots : ∀ x ∈ r.admitted t, ∀ y ∈ r.admitted t, x.body.actorId = y.body.actorId →
    x.body.actorSeq = y.body.actorSeq → x = y
  clock : ∀ a, (r.clockOf t).get a = r.tipSeq t a
  heads : ∀ id, id ∈ r.headsOf t ↔ ∃ op ∈ r.admitted t, op.id = id ∧ ∀ y ∈ r.admitted t, id ∉ y.body.deps
  generation : ∀ op ∈ r.admitted t, ∃ m st, r.metas[op.id]? = some m ∧ r.topicState t = some st ∧
    m.generation = op.body.generation ∧ (op.id = st.genesis → op.body.generation = 0) ∧
    (op.id ≠ st.genesis → IsGreatest
      {k | ∃ x ∈ r.admitted t, x.id ∈ op.body.deps ∧ k = x.body.generation + 1} op.body.generation)
  maxGeneration : r.admitted t = ∅ ∧ r.maxGenerationOf t = 0 ∨
    IsGreatest {k | ∃ op ∈ r.admitted t, op.body.generation = k} (r.maxGenerationOf t)
  children : ∀ d c, c ∈ r.childrenOf d ↔ ∃ op : Op, r.ops[op.id]? = some op ∧ op.id = c ∧ d ∈ op.body.deps

theorem RecordsOK.slots_eq (R : RecordsOK E r) (hx : x ∈ r.admitted t) {y : Op} (hy : y ∈ r.admitted t)
    (ha : x.body.actorId = y.body.actorId) (hs : x.body.actorSeq = y.body.actorSeq) : x = y := by
  obtain ⟨g, γ, st, -, B⟩ := R.branch_of_mem hx
  exact B.slots x hx y hy ha hs

theorem RecordsOK.clockOf_get (R : RecordsOK E r) (t : TopicId) (a : ActorId) :
    (r.clockOf t).get a = r.tipSeq t a := by
  have hclock := R.clock t a
  unfold Records.tipSeq
  cases h : r.actorTip[(t, a)]? with
  | none =>
    by_contra hne
    change (r.clockOf t).get a ≠ 0 at hne
    -- the last position the clock counts is held, so the actor has a tip
    obtain ⟨op, hop, hactor, hseq⟩ := (hclock _ (Nat.one_le_iff_ne_zero.2 hne)).1 le_rfl
    have htip := (R.tips t a op.body.actorSeq op.id).2 ⟨⟨op, hop, rfl, hactor, rfl⟩, fun y hy hya => ?_⟩
    · rw [h] at htip
      cases htip
    · have hle := (hclock y.body.actorSeq ((R.chained t y hy).1)).2 ⟨y, hy, hya, rfl⟩
      omega
  | some tip =>
    obtain ⟨⟨op, hop, -, hactor, hseq⟩, hmax⟩ := (R.tips t a tip.1 tip.2).1 h
    have h1 : 1 ≤ tip.1 := hseq ▸ (R.chained t op hop).1
    have hle : tip.1 ≤ (r.clockOf t).get a := (hclock tip.1 h1).2 ⟨op, hop, hactor, hseq⟩
    obtain ⟨y, hy, hya, hys⟩ := (hclock _ (h1.trans hle)).1 le_rfl
    have := hmax y hy hya
    change (r.clockOf t).get a = tip.1
    omega

theorem RecordsOK.structured (R : RecordsOK E r) (t : TopicId) : Structured r t where
  deps op hop d hd := R.closed t op hop d hd
  seqs a s := by
    rw [← R.clockOf_get]
    constructor
    · rintro ⟨op, hop, ha, hs⟩
      have h1 : 1 ≤ s := hs ▸ (R.chained t op hop).1
      exact ⟨h1, (R.clock t a s h1).2 ⟨op, hop, ha, hs⟩⟩
    · rintro ⟨h1, hle⟩
      exact (R.clock t a s h1).1 hle
  prev op hop hlt := by
    obtain ⟨g, γ, st, -, B⟩ := R.branch_of_mem hop
    cases hp : op.body.actorPrev with
    | none =>
      have := (B.links op hop).first hp
      omega
    | some p =>
      obtain ⟨hdep, x, hx, rfl, hactor, hseq⟩ := (B.links op hop).next p hp
      exact ⟨x, hx, rfl, hdep, hactor, hseq⟩
  slots x hx y hy ha hs := R.slots_eq hx hy ha hs
  clock := R.clockOf_get t
  heads id := by
    rw [R.heads]
    constructor
    · rintro ⟨op, hop, rfl⟩
      exact ⟨op, hop.1, rfl, hop.2⟩
    · rintro ⟨op, hop, rfl, hno⟩
      exact ⟨op, ⟨hop, hno⟩, rfl⟩
  generation op hop := by
    obtain ⟨m, hm, hok⟩ := R.hasMeta op.id op hop.1
    obtain ⟨g₀, γ₀, st, hst, -⟩ := R.branch_of_mem hop
    obtain ⟨g, γ, B, hstate⟩ := R.state t st hst
    refine ⟨m, st, hm, hst, by rw [hok.eq]; rfl, fun hid => ?_, fun hid => ?_⟩
    · rw [hstate.genesis] at hid
      rw [B.injOn hop B.root hid]
      exact B.root_links.2.1
    · have hne : op ≠ g := fun h => hid (by rw [h, hstate.genesis])
      have hlinks := B.links op hop
      obtain ⟨d, hd⟩ := BTreeSet.exists_mem_of_ne_empty (B.authored op hop hne).deps
      obtain ⟨x, hx, -, hlt⟩ := hlinks.deps d hd
      refine ⟨hlinks.generation (by omega), ?_⟩
      rintro _ ⟨y, hy, hdep, rfl⟩
      obtain ⟨y', hy', hid', hlt'⟩ := hlinks.deps y.id hdep
      rw [← B.injOn hy' hy hid']
      exact hlt'
  maxGeneration := by
    obtain ⟨hle, h0 | ⟨op, hop, hgen⟩⟩ := R.maxGeneration t
    · rcases (r.admitted t).eq_empty_or_nonempty with hempty | ⟨op, hop⟩
      · exact Or.inl ⟨hempty, h0⟩
      · refine Or.inr ⟨⟨op, hop, ?_⟩, ?_⟩
        · have := hle op hop
          omega
        · rintro _ ⟨y, hy, rfl⟩
          exact hle y hy
    · refine Or.inr ⟨⟨op, hop, hgen⟩, ?_⟩
      rintro _ ⟨y, hy, rfl⟩
      exact hle y hy
  children := R.children

/-- **The structure of every reachable store**: each topic is closed under dependencies, every actor's ops are
a chain without gaps that ends at its tip, and clock, heads, generations and children are those of the
admitted ops. -/
theorem store_structure (h : Reached E log) (t : TopicId) : Structured log.inner.toRecords t :=
  h.logOK.records.structured t

theorem store_structure_pair : Reached pairEnv pairLog ∧ Structured pairLog.inner.toRecords (IdType.ofNat 1) :=
  ⟨pairLog_reached, store_structure pairLog_reached (IdType.ofNat 1)⟩

/-! ## Clocks -/

/-- **Observed clocks are exact causal pasts.** -/
theorem observedClock_exact (h : Reached E log) (hop : op ∈ log.inner.toRecords.admitted t)
    (hm : log.inner.metas[op.id]? = some m) (a : ActorId) {s : ℕ} (hs : 1 ≤ s) :
    s ≤ m.observedClock.get a ↔ ∃ x ∈ log.inner.toRecords.admitted t, x.body.actorId = a ∧ x.body.actorSeq = s ∧
      opShape.Anc (log.inner.toRecords.admitted t) x op := by
  have R := h.logOK.records
  obtain ⟨m', hm', hok⟩ := R.hasMeta op.id op hop.1
  obtain rfl : m' = m := Option.some.inj (hm'.symm.trans hm)
  obtain ⟨g, γ, st, -, B⟩ := R.branch_of_mem hop
  rw [hok.exact a s hs]
  -- the ancestors of an admitted op are admitted
  have hanc : ∀ x, opShape.Anc {x | E.Valid x} x op ↔ opShape.Anc (log.inner.toRecords.admitted t) x op :=
    fun x => Shape.anc_iff_of_closed B.closed B.subset_valid injOn_valid hop
  constructor
  · rintro ⟨x, hx, ha, hseq⟩
    exact ⟨x, ((hanc x).1 hx).mem_left, ha, hseq, (hanc x).1 hx⟩
  · rintro ⟨x, -, ha, hseq, hx⟩
    exact ⟨x, (hanc x).2 hx, ha, hseq⟩

theorem observedClock_exact_pair : ∃ m, pairLog.inner.metas[pairMerge.id]? = some m ∧
    (1 ≤ m.observedClock.get (IdType.ofNat 2) ↔ ∃ x ∈ pairLog.inner.toRecords.admitted (IdType.ofNat 1),
      x.body.actorId = IdType.ofNat 2 ∧ x.body.actorSeq = 1 ∧
        opShape.Anc (pairLog.inner.toRecords.admitted (IdType.ofNat 1)) x pairMerge) := by
  have hop : pairMerge ∈ pairLog.inner.toRecords.admitted (IdType.ofNat 1) :=
    ⟨show pairLog.inner.ops[pairMerge.id]? = some pairMerge by decide +kernel, by decide +kernel⟩
  obtain ⟨m, hm, -⟩ := pairLog_reached.logOK.records.hasMeta _ _ hop.1
  exact ⟨m, hm, observedClock_exact pairLog_reached hop hm (IdType.ofNat 2) le_rfl⟩

/-! ## States -/

/-- **The stored state is the fold over the admitted ops**, listed in any order, with the stored heads. -/
theorem topicState_materialized (h : Reached E log) (hst : log.inner.topicState t = some st) {ops : List Op}
    (hops : ∀ op, op ∈ ops ↔ op ∈ log.inner.toRecords.admitted t) :
    materializeTopicState ops (log.inner.headsOf t) = .ok st := by
  have R := h.logOK.records
  obtain ⟨g, γ, B, hstate⟩ := R.state t st hst
  have hset : {op | op ∈ ops} = log.inner.toRecords.admitted t := Set.ext hops
  obtain ⟨st', hrun, hstate', hheads⟩ := materializeTopicState_stateOf B.payload ((hops g).2 B.root)
    (fun op hop => B.topic op ((hops op).1 hop)) (fun op hop γ' hpay => by
      obtain rfl := B.eq_root_of_payload ((hops op).1 hop) hpay
      rw [B.payload] at hpay
      cases hpay
      exact ⟨rfl, rfl⟩) (log.inner.headsOf t)
  rw [hset] at hstate'
  rw [hrun, ← hstate.ext B.injOn hstate', hheads]
  unfold Records.topicState at hst
  obtain ⟨st₀, -, rfl⟩ := Option.map_eq_some_iff.1 hst
  rfl

/-- The listed ops of a topic are the admitted ones. -/
theorem RecordsOK.mem_listOps (R : RecordsOK E r) : op ∈ r.listOps t ↔ op ∈ r.admitted t := by
  unfold Records.listOps
  rw [List.mem_filterMap]
  constructor
  · rintro ⟨id, hid, hop⟩
    obtain ⟨x, hx, rfl⟩ := (R.topicOps t id).1 (ExtTreeSet.mem_toList.1 hid)
    obtain rfl : x = op := Option.some.inj (hx.1.symm.trans hop)
    exact hx
  · intro hop
    exact ⟨op.id, ExtTreeSet.mem_toList.2 ((R.topicOps t op.id).2 ⟨op, hop, rfl⟩), hop.1⟩

theorem topicState_materialized_pair : ∃ st, pairLog.inner.topicState (IdType.ofNat 1) = some st ∧
    materializeTopicState (pairLog.inner.listOps (IdType.ofNat 1)).reverse
      (pairLog.inner.headsOf (IdType.ofNat 1)) = .ok st := by
  have hsome : (pairLog.inner.topicState (IdType.ofNat 1)).isSome = true := by decide +kernel
  obtain ⟨st, hst⟩ := Option.isSome_iff_exists.1 hsome
  refine ⟨st, hst, topicState_materialized pairLog_reached hst fun op => ?_⟩
  rw [List.mem_reverse]
  exact pairLog_reached.logOK.records.mem_listOps

/-! ## Reports -/

/-- What a call reports is what it did: the accepted ids are those whose records became complete, and the
evictions are the resets, each recorded in the journal. -/
structure ExactReport (E : Env) (before : MemoryInner) (admitted : Admitted) (after : MemoryInner) : Prop where
  accepted : ∀ id, id ∈ admitted.accepted ↔ before.depResolvable id = false ∧ after.depResolvable id = true
  resets : ∀ e ∈ admitted.evictions, ResetBy before after e
  all : ∀ t st st', before.topicState t = some st → after.topicState t = some st' → st'.genesis ≠ st.genesis →
    ∃ e ∈ admitted.evictions, e.topicId = t
  single : admitted.evictions.length ≤ 1
  journal : after.evictions = journalAll E before.evictions admitted.evictions

/-- What the result of a receive says about the records. -/
def ReceiveExact (E : Env) (before after : MemoryInner) : Result Admitted → Prop
  | .ok admitted => ExactReport E before admitted after
  | .error (.admissionCommitted admitted _) => ExactReport E before admitted after
  | .error _ => Quiet before after

theorem Reported.exactReport {before after : MemoryInner} {admitted : Admitted} (R : RecordsOK E before.toRecords)
    (R' : RecordsOK E after.toRecords) (h : Reported E P before admitted.accepted admitted.evictions after) :
    ExactReport E before admitted after where
  accepted id := by
    rw [Bool.eq_false_iff, Ne, R.depResolvable_iff, R'.depResolvable_iff]
    constructor
    · intro hid
      obtain ⟨hnone, op, hop⟩ := h.fresh id hid
      exact ⟨by simp [hnone], op, hop⟩
    · rintro ⟨hnone, op, hop⟩
      rcases h.stored id op hop with ⟨hid, -⟩ | hold
      · exact hid
      · exact absurd ⟨op, hold⟩ hnone
  resets := h.resets
  all t st st' hst hst' hne := by
    by_contra hno
    push Not at hno
    obtain ⟨st'', hst'', hgen⟩ := h.genesis t st hst hno
    rw [hst'] at hst''
    cases hst''
    exact hne hgen
  single := h.single
  journal := h.journal

/-- **A receive returns, and its report is exact**: with a success or an `AdmissionCommitted` error it names
the ids it stored and the resets it committed, and any other error means that it changed nothing but the
buffer. -/
theorem receive_exact (h : Reached E log) (V : View) (source : Option PeerId) (ops : List Op) :
    ∃ res log', receiveOps E V log source ops = some (res, log') ∧ ReceiveExact E log.inner log'.inner res := by
  have L := h.logOK
  have hspec : ∃ res log', receiveOps E V log source ops = some (res, log') ∧
    Receives E False (fun _ => True) log res log' ∧
      ∀ admitted, res = .ok admitted → Drained log (ops.map Op.id) admitted.accepted log' :=
    receiveOpsAdmission_spec V source L (fun _ _ => trivial) (by simp) (by intro; simp)
  obtain ⟨res, log', hcall, ⟨L', hres⟩, -⟩ := hspec
  refine ⟨res, log', hcall, ?_⟩
  cases res with
  | ok admitted => exact hres.1.exactReport L.records L'.records
  | error e =>
    cases e
    case admissionCommitted admitted source => exact hres.1.exactReport L.records L'.records
    all_goals exact hres

theorem receive_exact_pair : ∃ res log', receiveOps pairEnv {} pairLog none [pairLate] = some (res, log') ∧
    ReceiveExact pairEnv pairLog.inner log'.inner res := receive_exact pairLog_reached {} none [pairLate]

/-! ## Authorization -/

/-- `l` lists ancestors of the op, the genesis and all controls among them. -/
def ListsAncestry (E : Env) (op : Op) (l : List Op) : Prop :=
  (∀ x ∈ l, x ∈ E.past op) ∧ ∀ x ∈ E.past op, (∀ e, x.body.payload ≠ .event e) → x ∈ l

/-- The fold over the ancestry of the op answers whether its author is a member. -/
def AncestrySays (E : Env) (op : Op) (isMember : Prop) : Prop :=
  (∃ l, ListsAncestry E op l) ∧
    ∀ l, ListsAncestry E op l → ∃ st, materializeTopicState l ∅ = .ok st ∧
      (op.body.author ∈ st.members ↔ isMember)

/-- The state of an ancestry is what its fold computes. -/
theorem ancestrySays_of_stateOf {g : Op} {γ : TopicGenesis} {S : Set Op} (B : Branch E g γ S) (hfin : S.Finite)
    (hvalid : E.Valid op) (hdeps : ∀ d ∈ op.body.deps, ∃ x ∈ S, x.id = d) (hne : op.body.deps ≠ ∅)
    (hst : StateOf (E.past op) g γ st) :
    AncestrySays E op (op.body.author ∈ st.members) := by
  have hsub : E.past op ⊆ S := by
    rw [past_eq_below hvalid]
    exact B.below_subset hdeps
  have hroot : g ∈ E.past op := by
    rw [past_eq_below hvalid]
    exact B.root_mem_below hne hdeps
  refine ⟨⟨(hfin.subset hsub).toFinset.toList, fun x hx => by simpa using hx, fun x hx _ => by simpa using hx⟩,
    ?_⟩
  rintro l ⟨hin, hall⟩
  have hgen : ∀ x ∈ l, ∀ γ', x.body.payload = .genesis γ' → x.id = g.id ∧ γ' = γ := by
    intro x hx γ' hpay
    obtain rfl := B.eq_root_of_payload (hsub (hin x hx)) hpay
    rw [B.payload] at hpay
    cases hpay
    exact ⟨rfl, rfl⟩
  obtain ⟨st', hrun, hst', -⟩ := materializeTopicState_stateOf B.payload (hall g hroot (by simp [B.payload]))
    (fun x hx => B.topic x (hsub (hin x hx))) hgen ∅
  refine ⟨st', hrun, ?_⟩
  -- events take no part in a state
  have hall' : StateOf (E.past op) g γ st' := by
    have hmembers : ∀ p, memberWrites {x | x ∈ l} p = memberWrites (E.past op) p := by
      intro p
      refine subset_antisymm (memberWrites_mono fun x hx => hin x hx) ?_
      rintro e ⟨x, hx, hkey, hpay⟩
      refine ⟨x, hall x hx fun e' he' => ?_, hkey, hpay⟩
      rcases hpay with ⟨h, -⟩ | ⟨h, -⟩ <;> rw [he'] at h <;> cases h
    have hpolicy : policyWrites {x | x ∈ l} = policyWrites (E.past op) := by
      refine subset_antisymm (policyWrites_mono fun x hx => hin x hx) ?_
      rintro e ⟨x, hx, hkey, hpay⟩
      exact ⟨x, hall x hx fun e' he' => (by rw [he'] at hpay; cases hpay), hkey, hpay⟩
    exact { hst' with controls := fun p => hmembers p ▸ hst'.controls p, policyControl := hpolicy ▸
      hst'.policyControl }
  exact hall'.mem_members_iff (injOn_valid.mono fun _ => valid_of_mem_past) hst

/-- **The member set a batch consults is the one of the ancestry.** After any prefix of a batch, an op other
than a genesis is admitted only when the fold over its ancestry lists its author, and refused as the op of a
non-member only when it does not. -/
theorem authorization_exact (h : Reached E log) (k : ℕ) (reset : Bool) {ops done rest : List Op}
    {verified : BTreeSet OpId} {b : Build} (hsort : topologicalOps ops = .ok (done ++ op :: rest))
    (htopic : ∀ x ∈ done ++ op :: rest, x.body.topicId = t)
    (hver : ∀ x ∈ done ++ op :: rest, x.id ∈ verified → E.Valid x) (hpay : ∀ γ, op.body.payload ≠ .genesis γ)
    (hb : done.foldlM (buildOp E k log.inner.toRecords reset verified)
      (Build.start (log.inner.toRecords.expected reset t)
        (log.cache.branch t (log.inner.toRecords.expected reset t))) = .ok b) :
    (∀ b', buildOp E k log.inner.toRecords reset verified b op = .ok b' → op.id ∈ b'.accepted →
      AncestrySays E op True) ∧ (buildOp E k log.inner.toRecords reset verified b op = .error .notTopicMember →
        AncestrySays E op False) := by
  have L := h.logOK
  have O := topologicalOps_ordered hsort
  obtain ⟨rv, I⟩ := (buildFold_post L.records L.cache O (List.prefix_append done (op :: rest)) htopic hver).of_ok
    hb
  have hop : op ∈ done ++ op :: rest := by simp
  have hpost := I.buildOp (n := k) L.records (hver op hop) (htopic op hop) O.fresh O.not_dep
  constructor
  · intro b' hb' hacc
    obtain ⟨rv', I'⟩ := hpost.of_ok hb'
    obtain ⟨e, he, hid⟩ := (I'.accepted op.id).1 hacc
    have heq : e.1 = op := by
      rcases List.mem_append.1 (I'.entries e he) with hin | hin
      · exact absurd hid (O.fresh _ hin)
      · exact List.mem_singleton.1 hin
    have hmem : op ∈ rv'.admitted t := ⟨I'.grows.getElem?_ops.2 (Or.inr ⟨e, he, heq, rfl⟩), htopic op hop⟩
    obtain ⟨g, γ, st, -, B⟩ := I'.virtual.ok.branch_of_mem hmem
    have hne : op ≠ g := fun h => hpay γ (h ▸ B.payload)
    obtain ⟨st', hst', hin⟩ := (B.authored op hmem hne).member
    have hsays := ancestrySays_of_stateOf B (I'.virtual.ok.finite t) (B.valid hmem)
      (fun d hd => by obtain ⟨x, hx, hid, -⟩ := (B.links op hmem).deps d hd; exact ⟨x, hx, hid⟩)
      (B.authored op hmem hne).deps hst'
    rwa [show (op.body.author ∈ st'.members) = True from eq_true hin] at hsays
  · intro herr
    obtain ⟨g, γ, B, S⟩ : ∃ g γ, Branch E g γ (rv.admitted t) ∧ Stranger E g γ (rv.admitted t) op :=
      hpost.of_error herr
    obtain ⟨st', hst', hnot⟩ := S.state
    have hsays := ancestrySays_of_stateOf B (I.virtual.ok.finite t) S.valid S.deps S.nonempty hst'
    rwa [show (op.body.author ∈ st'.members) = False from eq_false hnot] at hsays

/-- The batch before its only op, what peer 2 writes after its removal. -/
def pairBuild : Build :=
  Build.start (pairLog.inner.toRecords.expected false (IdType.ofNat 1))
    (pairLog.cache.branch (IdType.ofNat 1) (pairLog.inner.toRecords.expected false (IdType.ofNat 1)))

theorem authorization_exact_pair :
    buildOp pairEnv 0 pairLog.inner.toRecords false ∅ pairBuild pairLate = .error .notTopicMember ∧
      AncestrySays pairEnv pairLate False := by
  have hsort : topologicalOps [pairLate] = .ok ([] ++ pairLate :: []) := by decide +kernel
  have htopic : ∀ x ∈ [] ++ pairLate :: [], x.body.topicId = IdType.ofNat 1 := by decide +kernel
  have hver : ∀ x ∈ [] ++ pairLate :: [], x.id ∈ (∅ : BTreeSet OpId) → pairEnv.Valid x := by simp
  have hrefused : (match buildOp pairEnv 0 pairLog.inner.toRecords false ∅ pairBuild pairLate with
      | .error e => decide (e = .notTopicMember)
      | .ok _ => false) = true := by decide +kernel
  have herr : buildOp pairEnv 0 pairLog.inner.toRecords false ∅ pairBuild pairLate = .error .notTopicMember := by
    cases hb : buildOp pairEnv 0 pairLog.inner.toRecords false ∅ pairBuild pairLate with
    | ok b => rw [hb] at hrefused; cases hrefused
    | error e => rw [hb] at hrefused; rw [of_decide_eq_true hrefused]
  have hpay : ∀ γ, pairLate.body.payload ≠ .genesis γ := fun γ h => by cases h
  exact ⟨herr, (authorization_exact pairLog_reached 0 false hsort htopic hver hpay rfl).2 herr⟩

end Irokle
