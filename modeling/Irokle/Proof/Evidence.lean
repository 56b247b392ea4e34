import Irokle.Proof.Activation
import Irokle.Proof.Obligations
import Irokle.Proof.Reachable

/-!
# What the evidence of a peer proves

The clock of a stored ack merges over many acks and is read as a causal cut. Every position it covers
is that of an op the node held when it took some ack of the peer, below a head that ack named, or of
its whole frontier when the peer matched it. A reset drops the evidence of its topic, so the op that
was certified is the op the node holds now.

* `Backed` — an ack each of whose heads and positions is certified;
* `validateAck_backed`, `frontierAck_backed` — what is about to be stored is backed;
* `KeepsAcks` — a move of the node stores no ack of its own, and keeps the ops of the acks it leaves;
* `evidence_sound` — every answer of `peer_reached_op` is certified.
-/

namespace Irokle

open Std Outcome Causal Relation List ExtTreeSet

/-- The call applies this ack, with this answer of its signature check. -/
inductive NodeOp.Acks : NodeOp → Result Unit → SyncAck → Prop
  | one (signed : Result Unit) (ack : SyncAck) : NodeOp.Acks (.applyAck signed ack) signed ack
  | batch {acks : List (Result Unit × SyncAck)} {signed : Result Unit} {ack : SyncAck}
  (h : (signed, ack) ∈ acks) :
      NodeOp.Acks (.applyAcks acks) signed ack

/-- A call on the node `n` says that the peer holds an op of the branch `g`: it named the op, or one above it
that `n` holds, in an ack it signed for the branch, or it matched the whole frontier of `n`, or `n` was told
so. -/
inductive Attests (E : Env) (n : Node) (p : PeerId) (t : TopicId) (g id : OpId) : NodeOp → Prop
  | acked {op : NodeOp} (ack : SyncAck) (hop : op.Acks (.ok ()) ack) (hpeer : ack.peerId = p)
  (htopic : ack.topicId = t)
      (hgenesis : ack.genesis = some g) (head : Op) (hnamed : head.id ∈ ack.heads)
      (hheld : head ∈ n.storage.inner.toRecords.admitted t)
      (habove : head.id = id ∨ ∃ x, x.id = id ∧ opShape.Anc (n.storage.inner.toRecords.admitted t) x head) :
      Attests E n p t g id op
  | matched (hheld : id ∈ n.storage.inner.listOpIds t) :
      Attests E n p t g id (.recordFingerprint true p t (n.storage.inner.topicFingerprintOf E t))
  | told (hheld : id ∈ n.storage.inner.listOpIds t) : Attests E n p t g id (.recordPeerSynced true p t)

/-- `Attests`, on the branch the node is on. -/
def Certifies (E : Env) (n : Node) (op : NodeOp) (p : PeerId) (t : TopicId) (g id : OpId) : Prop :=
  (∃ st, n.storage.inner.topicState t = some st ∧ st.genesis = g) ∧ Attests E n p t g id op

/-- Every head and every position of an ack for the branch `g` is certified. -/
structure Backed (C : OpId → Prop) (r : Records) (t : TopicId) (g : OpId) (ack : PeerAck) : Prop where
  genesis : ack.genesis = some g
  heads : ∀ h ∈ ack.heads, C h
  clock : ∀ a s, 1 ≤ s → s ≤ ack.clock.get a → ∃ x ∈ r.admitted t, x.body.actorId = a ∧
    x.body.actorSeq = s ∧ C x.id

/-- Every stored ack is backed, on the branch its topic is on. -/
def AcksBacked (C : PeerId → TopicId → OpId → OpId → Prop) (inner : MemoryInner) : Prop :=
  ∀ (p : PeerId) (t : TopicId) ack, inner.peerAcks[(p, t)]? = some ack →
    ∃ st, inner.topicState t = some st ∧ Backed (C p t st.genesis) inner.toRecords t st.genesis ack

/-- A move that stores no ack, and keeps the branch and the ops of the acks it leaves. -/
def KeepsAcks (inner inner' : MemoryInner) : Prop :=
  ∀ (p : PeerId) (t : TopicId) ack, inner'.peerAcks[(p, t)]? = some ack → inner.peerAcks[(p, t)]? = some ack ∧
    ∀ st, inner.topicState t = some st → (∃ st', inner'.topicState t = some st' ∧ st'.genesis = st.genesis) ∧
      inner.toRecords.admitted t ⊆ inner'.toRecords.admitted t

variable {E : Env} {n n' : Node} {inner inner' inner₁ : MemoryInner} {r : Records} {v v' : Evidence} {p : PeerId}
  {t : TopicId}
  {g id : OpId} {C C' : PeerId → TopicId → OpId → OpId → Prop} {D : OpId → Prop} {ack : SyncAck}
  {incoming existing : PeerAck} {reserve : ℕ → Result Unit} {op : NodeOp} {st : TopicState} {K : Prop}

/-! ## Backed acks -/

/-- Backing survives while the ops of the topic stay. -/
theorem Backed.mono {D' : OpId → Prop} {r' : Records} (B : Backed D r t g incoming) (hD : ∀ id, D id → D' id)
    (hops : r.admitted t ⊆ r'.admitted t) : Backed D' r' t g incoming where
  genesis := B.genesis
  heads h hh := hD h (B.heads h hh)
  clock a s h1 hs := by
    obtain ⟨x, hx, hactor, hseq, hcert⟩ := B.clock a s h1 hs
    exact ⟨x, hops hx, hactor, hseq, hD x.id hcert⟩

theorem Backed.merged (Bi : Backed D r t g incoming) (Be : Backed D r t g existing) :
    Backed D r t g (mergedPeerAck existing incoming) := by
  unfold mergedPeerAck
  split
  · refine ⟨Bi.genesis, Bi.heads, fun a s h1 hs => ?_⟩
    rcases (ActorClock.le_get_merge h1).1 hs with h | h
    · exact Bi.clock a s h1 h
    · exact Be.clock a s h1 h
  · exact Bi

theorem AcksBacked.mono (h : ∀ p t g id, C p t g id → C' p t g id) (H : AcksBacked C inner) :
    AcksBacked C' inner := by
  intro p t ack hack
  obtain ⟨st, hst, B⟩ := H p t ack hack
  exact ⟨st, hst, B.mono (h p t st.genesis) subset_rfl⟩

theorem AcksBacked.keep (H : AcksBacked C inner) (h : KeepsAcks inner inner') : AcksBacked C inner' := by
  intro p t ack hack
  obtain ⟨hold, hkept⟩ := h p t ack hack
  obtain ⟨st, hst, B⟩ := H p t ack hold
  obtain ⟨⟨st', hst', hgen⟩, hops⟩ := hkept st hst
  refine ⟨st', hst', ?_⟩
  rw [hgen]
  exact B.mono (fun _ h => h) hops

/-! ## What is about to be stored -/

/-- One held head in the fold of `heldClock`. -/
def holdHead (r : Records) (clock : ActorClock) (head : OpId) : Result ActorClock :=
  match r.metas[head]? with
  | none => .error (.missingDependency head)
  | some m => .ok ((clock.merge m.observedClock).observe m.actorId m.actorSeq)

/-- A position of the joined clock is below or at one of the heads. -/
theorem heldClock_le {clock : ActorClock} {held : List OpId} (h : heldClock r held = .ok clock) {a : ActorId}
    {s : ℕ} (h1 : 1 ≤ s) (hs : s ≤ clock.get a) :
    ∃ head ∈ held, ∃ m, r.metas[head]? = some m ∧
      (s ≤ m.observedClock.get a ∨ m.actorId = a ∧ s ≤ m.actorSeq) := by
  have key : ∀ (held : List OpId) (start : ActorClock), held.foldlM (holdHead r) start = .ok clock →
      s ≤ start.get a ∨ ∃ head ∈ held, ∃ m, r.metas[head]? = some m ∧
        (s ≤ m.observedClock.get a ∨ m.actorId = a ∧ s ≤ m.actorSeq) := by
    intro held
    induction held with
    | nil =>
      intro start hfold
      cases hfold
      exact Or.inl hs
    | cons head held ih =>
      intro start hfold
      rw [foldlM_cons, holdHead] at hfold
      cases hm : r.metas[head]? with
      | none => rw [hm] at hfold; cases hfold
      | some m =>
        rw [hm] at hfold
        rcases ih _ hfold with hle | ⟨h, hh, hrest⟩
        · rcases ActorClock.le_get_observe.1 hle with hle | hown
          · rcases (ActorClock.le_get_merge h1).1 hle with hle | hobserved
            · exact Or.inl hle
            · exact Or.inr ⟨head, mem_cons_self, m, hm, Or.inl hobserved⟩
          · exact Or.inr ⟨head, mem_cons_self, m, hm, Or.inr hown⟩
        · exact Or.inr ⟨h, mem_cons_of_mem _ hh, hrest⟩
  rcases key held ∅ h with hle | hrest
  · rw [ActorClock.get_empty] at hle
    omega
  · exact hrest

/-- A position an op or its observed clock covers is that of the op or of an ancestor. -/
theorem RecordsOK.exists_below (R : RecordsOK E r) {head : Op} {m : OpMeta} (hhead : head ∈ r.admitted t)
    (M : MetaOK E head m) {a : ActorId} {s : ℕ} (h1 : 1 ≤ s)
    (hs : s ≤ m.observedClock.get a ∨ m.actorId = a ∧ s ≤ m.actorSeq) :
    ∃ x ∈ r.admitted t, x.body.actorId = a ∧ x.body.actorSeq = s ∧
      (x = head ∨ opShape.Anc (r.admitted t) x head) := by
  obtain ⟨g, γ, st, -, B⟩ := R.branch_of_mem hhead
  have hanc : ∀ {x}, opShape.Anc {x | E.Valid x} x head → opShape.Anc (r.admitted t) x head := fun h =>
    (Shape.anc_iff_of_closed B.closed B.subset_valid injOn_valid hhead).1 h
  rcases hs with hobserved | ⟨hactor, hle⟩
  · obtain ⟨x, hx, hxa, hxs⟩ := (M.exact a s h1).1 hobserved
    exact ⟨x, (hanc hx).mem_left, hxa, hxs, Or.inr (hanc hx)⟩
  · have hma : head.body.actorId = a := by rw [← hactor, M.eq]; rfl
    have hms : s ≤ head.body.actorSeq := by rw [M.eq] at hle; exact hle
    rcases Nat.lt_or_ge s head.body.actorSeq with hlt | hge
    · obtain ⟨x, hx, hxa, hxs⟩ := B.chained.down h1 hhead hlt
      exact ⟨x, hx.mem_left, hxa.trans hma, hxs, Or.inr hx⟩
    · exact ⟨head, hhead, hma, Nat.le_antisymm hge hms, Or.inl rfl⟩

/-- The held ids of an ack are heads it names and this node holds. -/
theorem checkNamed_post (r : Records) (ack : SyncAck) (ids : List OpId) (held : BTreeSet OpId) :
    Post (ids.foldlM (checkNamed r ack) held) (fun held' => ∀ id ∈ held', id ∈ held ∨ id ∈ ack.heads ∧
      ∃ m, r.metas[id]? = some m ∧ m.topicId = ack.topicId) fun _ => True := by
  induction ids generalizing held with
  | nil => exact Post.ok fun id hid => Or.inl hid
  | cons named ids ih =>
    rw [foldlM_cons]
    have hstep : Post (checkNamed r ack held named) (fun held' => ∀ id ∈ held', id ∈ held ∨ id ∈ ack.heads ∧
      ∃ m, r.metas[id]? = some m ∧
        m.topicId = ack.topicId) fun _ => True := by
      unfold checkNamed
      split
      · exact Post.ok fun id hid => Or.inl hid
      · rename_i m hm
        refine refuseIf_bind (fun _ => trivial) fun htopic => ?_
        refine refuseIf_bind (fun _ => trivial) fun _ => Post.ok fun id hid => ?_
        split at hid
        · rename_i hhead
          rw [mem_insert] at hid
          rcases hid with hid | hid
          · obtain rfl : named = id := by simpa using hid
            exact Or.inr ⟨hhead, m, hm, not_not.1 htopic⟩
          · exact Or.inl hid
        · exact Or.inl hid
    refine hstep.bind fun held' hheld' => (ih held').mono (fun held'' h id hid => ?_) fun _ h => h
    rcases h id hid with h | h
    · exact hheld' id h
    · exact Or.inr h

/-- **What a valid ack certifies is backed by it**, whatever clock it claims. -/
theorem validateAck_backed (R : RecordsOK E n.storage.inner.toRecords) (hop : op.Acks (.ok ()) ack)
    {peer : PeerId} (h : validateAck E peer n.storage.inner.toRecords ack = .ok (some incoming)) :
    incoming.peerId = ack.peerId ∧ incoming.topicId = ack.topicId ∧
    ∃ st, n.storage.inner.topicState ack.topicId = some st ∧
      Backed (Certifies E n op ack.peerId ack.topicId st.genesis) n.storage.inner.toRecords ack.topicId st.genesis
        incoming := by
  unfold validateAck at h
  split at h
  · cases h
  · rename_i st hst
    split at h
    · rename_i genesis hgenesis
      simp only [bind_eq_ok, refuseIf_eq_ok] at h
      obtain ⟨-, hbranch, -, -, -, -, held, hheld, h⟩ := h
      split at h
      · cases h
      · simp only [bind_eq_ok, pure_eq_ok, Option.some.injEq] at h
        obtain ⟨clock, hclock, rfl⟩ := h
        have hgen : ack.genesis = some st.genesis := by rw [hgenesis, not_not.1 hbranch]
        have hnamed := (checkNamed_post n.storage.inner.toRecords ack _ ∅).of_ok hheld
        have hops : ∀ head ∈ held, head ∈ ack.heads ∧ ∃ op ∈ n.storage.inner.toRecords.admitted ack.topicId,
          op.id = head ∧
            ∃ m, n.storage.inner.metas[head]? = some m ∧ MetaOK E op m := by
          intro head hhead
          obtain ⟨hin, m, hm, htopic⟩ := (hnamed head hhead).resolve_left (by simp)
          obtain ⟨x, hx, hid, M⟩ := R.meta_spec hm
          refine ⟨hin, x, ⟨by rw [hid]; exact hx, ?_⟩, hid, m, hm, M⟩
          rw [← htopic, M.eq]
          rfl
        refine ⟨rfl, rfl, st, hst, hgen, fun head hhead => ?_, fun a s h1 hs => ?_⟩
        · obtain ⟨hin, x, hx, rfl, -⟩ := hops head hhead
          exact ⟨⟨st, hst, rfl⟩, .acked ack hop rfl rfl hgen x hin hx (Or.inl rfl)⟩
        · obtain ⟨head, hhead, m, hm, hle⟩ := heldClock_le hclock h1 hs
          obtain ⟨hin, y, hy, rfl, m', hm', M⟩ := hops head (mem_toList.1 hhead)
          have hmm : m' = m := Option.some.inj (hm'.symm.trans hm)
          subst hmm
          obtain ⟨x, hx, hxa, hxs, hbelow⟩ := R.exists_below hy M h1 hle
          refine ⟨x, hx, hxa, hxs, ⟨st, hst, rfl⟩, .acked ack hop rfl rfl hgen y hin hy ?_⟩
          exact hbelow.imp (fun h => by rw [h]) fun h => ⟨x, rfl, h⟩
    · cases h

theorem Records.heads_of_topicState (h : r.topicState t = some st) : st.heads = r.headsOf t := by
  unfold Records.topicState at h
  obtain ⟨st', -, rfl⟩ := Option.map_eq_some_iff.1 h
  rfl

/-- **The record of a frontier is backed by the whole frontier**; without one it certifies nothing. -/
theorem frontierAck_backed {whole : Bool} (R : RecordsOK E inner.toRecords)
    (h : frontierAck inner whole p t = .ok incoming) :
    incoming.peerId = p ∧ incoming.topicId = t ∧ ∃ st, inner.topicState t = some st ∧
      (whole = true → incoming.heads = inner.headsOf t ∧ incoming.clock = inner.clockOf t) ∧
      Backed (fun id => whole = true ∧ id ∈ inner.listOpIds t) inner.toRecords t st.genesis incoming := by
  unfold frontierAck ackFrontier at h
  split at h
  · cases h
  · rename_i st hst
    simp only [bind_eq_ok, refuseIf_eq_ok, pure_eq_ok] at h
    obtain ⟨frontier, hfrontier, -, -, rfl⟩ := h
    cases hfrontier
    cases whole with
    | false => exact ⟨rfl, rfl, st, hst, by simp, ⟨rfl, by simp, fun a s h1 hs => by simp at hs; omega⟩⟩
    | true =>
      refine ⟨rfl, rfl, st, hst, fun _ => ⟨Records.heads_of_topicState hst, rfl⟩, rfl, fun h hh => ⟨rfl, ?_⟩,
        fun a s h1 hs => ?_⟩
      · have hh' : h ∈ inner.headsOf t := by rw [← Records.heads_of_topicState hst]; exact hh
        obtain ⟨x, hx, rfl⟩ := (R.heads t h).1 hh'
        exact (R.topicOps t x.id).2 ⟨x, hx.1, rfl⟩
      · obtain ⟨x, hx, hxa, hxs⟩ := (R.clock t a s h1).1 hs
        exact ⟨x, hx, hxa, hxs, rfl, (R.topicOps t x.id).2 ⟨x, hx, rfl⟩⟩

/-! ## Storing an ack -/

/-- Applying an ack stores one record. -/
theorem applyAckLocked_acks (incoming : PeerAck) :
    Post (v.applyAckLocked reserve r incoming) (fun res => ∀ (p : PeerId) (t : TopicId), res.2.peerAcks[(p, t)]? =
      if p = incoming.peerId ∧ t = incoming.topicId then some (v.effectiveAck incoming) else v.peerAcks[(p, t)]?)
        fun _ => True := by
  have hfold : ∀ (l : List (ObligationKind × SyncObligation)) (eff : PeerAck) (v : Evidence),
      (l.foldl (Evidence.settleKind eff r.metas) v).peerAcks = v.peerAcks := by
    intro l eff
    induction l with
    | nil => intro v; rfl
    | cons e l ih => intro v; exact (ih _).trans Evidence.peerAcks_settleKind
  unfold Evidence.applyAckLocked
  refine Post.skip fun commit => ?_
  refine Post.skip fun _ => ?_
  refine Post.skip fun _ => Post.ok fun p t => ?_
  dsimp only
  rw [hfold]
  simp only [ExtTreeMap.getElem?_insert, Std.compare_eq_iff_eq, Prod.mk.injEq]
  exact if_congr ⟨fun h => ⟨h.1.symm, h.2.symm⟩, fun h => ⟨h.1.symm, h.2.symm⟩⟩ rfl rfl

/-- **Storing a backed ack keeps every stored ack backed.** -/
theorem AcksBacked.apply (H : AcksBacked C { inner with toEvidence := v })
    (hst : inner.topicState incoming.topicId = some st)
    (B : Backed (C incoming.peerId incoming.topicId st.genesis) inner.toRecords incoming.topicId
      st.genesis incoming)
    {k : ℕ} (h : v.applyAckLocked reserve inner.toRecords incoming = .ok (k, v')) :
    AcksBacked C { inner with toEvidence := v' } := by
  have hacks := (applyAckLocked_acks incoming).of_ok h
  intro p t ack hack
  rw [show ({ inner with toEvidence := v' } : MemoryInner).peerAcks[(p, t)]? = v'.peerAcks[(p, t)]? from rfl,
    hacks] at hack
  split at hack
  · rename_i hkey
    obtain ⟨rfl, rfl⟩ := hkey
    cases hack
    refine ⟨st, hst, ?_⟩
    unfold Evidence.effectiveAck
    cases hold : v.peerAcks[(incoming.peerId, incoming.topicId)]? with
    | none => exact B
    | some existing =>
      obtain ⟨st', hst', Be⟩ := H incoming.peerId incoming.topicId existing hold
      obtain rfl : st' = st := Option.some.inj (hst'.symm.trans hst)
      dsimp only
      split
      · exact Be
      · exact B.merged Be
  · exact H p t ack hack

/-! ## Moves of a node -/

theorem KeepsAcks.refl (inner : MemoryInner) : KeepsAcks inner inner :=
  fun _ _ _ hack => ⟨hack, fun st hst => ⟨⟨st, hst, rfl⟩, subset_rfl⟩⟩

theorem KeepsAcks.trans (h : KeepsAcks inner inner₁) (h' : KeepsAcks inner₁ inner') : KeepsAcks inner inner' := by
  intro p t ack hack
  obtain ⟨hack₁, hrest'⟩ := h' p t ack hack
  obtain ⟨hack₀, hrest⟩ := h p t ack hack₁
  refine ⟨hack₀, fun st hst => ?_⟩
  obtain ⟨⟨st₁, hst₁, hgen₁⟩, hops₁⟩ := hrest st hst
  obtain ⟨⟨st', hst', hgen'⟩, hops'⟩ := hrest' st₁ hst₁
  exact ⟨⟨st', hst', hgen'.trans hgen₁⟩, hops₁.trans hops'⟩

/-- A change that leaves the records and adds no ack. -/
theorem KeepsAcks.of_records (hrecords : inner'.toRecords = inner.toRecords)
    (hacks : ∀ (p : PeerId) (t : TopicId) ack, inner'.peerAcks[(p, t)]? = some ack →
      inner.peerAcks[(p, t)]? = some ack) :
    KeepsAcks inner inner' := by
  intro p t ack hack
  refine ⟨hacks p t ack hack, fun st hst => ?_⟩
  rw [hrecords]
  exact ⟨⟨st, hst, rfl⟩, subset_rfl⟩

theorem Reported.keepsAcks {P : Op → Prop} {accepted : BTreeSet OpId} {evictions : List TopicEviction}
    (h : Reported E P inner accepted evictions inner') : KeepsAcks inner inner' := by
  intro p t ack hack
  obtain ⟨hold, hnone⟩ := h.peerAcks p t ack hack
  refine ⟨hold, fun st hst => ⟨h.genesis t st hst hnone, fun x hx => ⟨h.kept x.id x hx.1 ?_, hx.2⟩⟩⟩
  rw [hx.2]
  exact hnone

theorem logSteps_keepsAcks {log log' : Oplog} (h : ReflTransGen (LogStep E) log log')
    (L : LogOK E K (fun _ => True) log) :
    KeepsAcks log.inner log'.inner := by
  induction h with
  | refl => exact .refl _
  | tail hsteps hstep ih =>
    obtain ⟨-, accepted, evictions, hreported⟩ := hstep K (logSteps_ok hsteps L)
    exact ih.trans hreported.keepsAcks

/-- Upkeep drops evidence, and a reset drops it with the ops of its topic. -/
theorem Node.Upkeep.keepsAcks (u : Node.Upkeep) (R : RecordsOK E inner.toRecords) (B : inner.BufferOK K) :
    KeepsAcks inner (u.toWrite.run E reserve none inner).2 := by
  cases u with
  | resetTopic t =>
    unfold Node.Upkeep.toWrite Write.run
    dsimp only
    rcases resetTopicLocked_spec (E := E) B t (reserve 0) with ⟨e, -, hres⟩ | ⟨k, inner₁, -, hres, R₁⟩
    · rw [hres]
      exact .refl _
    · rw [hres]
      intro p t' ack hack
      dsimp only at hack ⊢
      rw [R₁.peerAcks, getElem?_filter_key, Option.ite_none_right_eq_some] at hack
      have hne : t' ≠ t := of_decide_eq_true hack.1
      refine ⟨hack.2, fun st hst => ?_⟩
      rw [R₁.records, R.admitted_resetTopic, if_neg hne, (R.reads_resetTopic t').2.2.2.2.1, if_neg hne]
      exact ⟨⟨st, hst, rfl⟩, subset_rfl⟩
  | removePendingOp | purgePendingWaiters | rejectPendingSubtree | expirePending | unsealTopic | clearEviction =>
    exact .of_records rfl fun _ _ _ h => h
  | putSyncObligation o expected =>
    refine MemoryInner.of_update (.refl _) fun v' hput => .of_records rfl fun p t ack hack => ?_
    unfold Irokle.putSyncObligation at hput
    simp only [bind_eq_ok, pure_eq_ok] at hput
    obtain ⟨-, -, -, -, merged, -, -, -, rfl⟩ := hput
    exact Evidence.peerAcks_putObligationLocked ▸ hack
  | clearPeerSyncState peer t expected =>
    refine .of_records rfl fun p t' ack hack => ?_
    unfold Node.Upkeep.toWrite Write.run Irokle.clearPeerSyncState at hack
    dsimp only at hack
    split at hack
    · exact (BTreeMap.of_getElem?_erase hack).2
    · exact hack
  | sealTopic t => exact MemoryInner.of_update (.refl _) fun _ _ => .of_records rfl fun _ _ _ h => h

/-- An activation brings ops and no ack. -/
theorem Activation.keepsAcks {s' : MemoryStorage} {q : ProvisionalTopic} {expected : TopicState}
    {effects : AdmissionEffects} {ns : Namespace} {changes : BTreeMap (PeerId × ObligationKind) SyncObligation}
    {moves : List (ℕ × OpId × BTreeSet OpId)} (H : NodeOK E n)
    (A : Activation n.storage reserve q expected effects ns changes moves s') :
    KeepsAcks n.storage.inner s'.inner := by
  have C := A.copiedTopic H
  intro p t ack hack
  have hacks : s'.inner.peerAcks = n.storage.inner.peerAcks := by
    have hfold : ∀ (l : List SyncObligation) (v : Evidence), (l.foldl Evidence.putObligationLocked v).peerAcks =
        v.peerAcks := by
      intro l
      induction l with
      | nil => intro v; rfl
      | cons o l ih => intro v; exact (ih _).trans Evidence.peerAcks_putObligationLocked
    rw [A.eq]
    exact hfold _ _
  refine ⟨by rwa [hacks] at hack, fun st hst => ?_⟩
  have hne : t ≠ q.topicId := by
    rintro rfl
    have hst' : n.storage.inner.toRecords.topicState q.topicId = some st := hst
    unfold Records.topicState at hst'
    rw [A.absent] at hst'
    cases hst'
  refine ⟨⟨st, (C.state t).trans (by rw [if_neg hne]; exact hst), rfl⟩, fun x hx => ⟨?_, hx.2⟩⟩
  rw [C.ops]
  split
  · rename_i hlisted
    have hns : LogOK E True (fun _ => True) (n.oplog ns.inner) :=
      H.staged _ _ (MemoryStorage.viewed_eq_some.1 A.viewed).1
    have R : RecordsOK E ns.inner.toRecords := hns.records
    obtain ⟨y, hy, hid⟩ := (R.topicOps _ _).1 hlisted
    have hxy : y = x := (R.valid hy.1).eq_of_id (H.main.records.valid hx.1) hid
    exact absurd (hx.2.symm.trans (hxy ▸ hy.2)) hne
  · exact hx.1

/-- **A move of the node stores no ack**, and keeps the ops of those it leaves. -/
theorem NodeMove.keepsAcks (H : NodeOK E n) (h : NodeMove E n n') :
    KeepsAcks n.storage.inner n'.storage.inner := by
  cases h with
  | ticked writes => exact .refl _
  | @called view inner log hlock hsteps hview =>
    cases view with
    | none =>
      cases hlock
      exact logSteps_keepsAcks hsteps H.main
    | some v =>
      have hinner : (n.settle (some v) log).storage.inner = n.storage.inner := by
        unfold Node.settle MemoryStorage.release
        dsimp only
        split <;> rfl
      rw [hinner]
      exact .refl _
  | stored ev hup writes =>
    have hstep := storageStep E n.storage ev
    generalize n.storage.step E ev = s' at hstep
    cases hstep with
    | main w reserve =>
      obtain ⟨u, rfl⟩ := hup
      exact u.keepsAcks H.main.records H.main.buffer
    | activated A => exact A.keepsAcks H
    | _ => exact .refl _

theorem NodeMoves.keepsAcks (H : NodeOK E n) (h : NodeMoves E n n') :
    KeepsAcks n.storage.inner n'.storage.inner := by
  induction h with
  | refl => exact .refl _
  | tail hmoves hmove ih => exact ih.trans (hmove.keepsAcks (H.moves hmoves))

/-! ## Runs of a node -/

section Step

variable (R : RecordsOK E n.storage.inner.toRecords) (hC : ∀ p t g id, Certifies E n op p t g id → C p t g id)

include R hC

/-- An ack of the call, once validated, is applied. -/
theorem AcksBacked.applyOne (hop : op.Acks (.ok ()) ack)
    (H : AcksBacked C { n.storage.inner with toEvidence := v })
    (hvalid : validateAck E n.peer n.storage.inner.toRecords ack = .ok (some incoming)) {k : ℕ}
    (h : v.applyAckLocked reserve n.storage.inner.toRecords incoming = .ok (k, v')) :
    AcksBacked C { n.storage.inner with toEvidence := v' } := by
  obtain ⟨hpeer, htopic, st, hst, B⟩ := validateAck_backed R hop hvalid
  rw [← hpeer, ← htopic] at B
  rw [← htopic] at hst
  exact H.apply hst (B.mono (hC _ _ _) subset_rfl) h

theorem AcksBacked.applyMany {acks : List (Result Unit × SyncAck)} (hop : op = .applyAcks acks)
    (H : AcksBacked C n.storage.inner) :
    AcksBacked C { n.storage.inner with toEvidence := (applyAcks E n.peer reserve n.storage.inner acks).2 } := by
  unfold applyAcks
  dsimp only
  -- what was validated came with a good signature
  have hvalidated : ∀ res ∈ acks.map (fun a => a.1.bind fun _ =>
        validateAck E n.peer n.storage.inner.toRecords a.2),
      ∀ incoming, res = .ok (some incoming) → ∃ ack, op.Acks (.ok ()) ack ∧
        validateAck E n.peer n.storage.inner.toRecords ack = .ok (some incoming) := by
    intro res hres incoming hok
    obtain ⟨⟨signed, ack⟩, hmem, rfl⟩ := mem_map.1 hres
    cases signed with
    | error e => cases hok
    | ok u => exact ⟨ack, hop ▸ .batch hmem, hok⟩
  have key : ∀ (l : List (Result (Option PeerAck) × ℕ)), (∀ e ∈ l, ∀ incoming, e.1 = .ok (some incoming) → ∃ ack,
      op.Acks (.ok ()) ack ∧ validateAck E n.peer n.storage.inner.toRecords ack = .ok (some incoming)) →
      ∀ (acc : List (Result Unit) × Evidence), AcksBacked C { n.storage.inner with toEvidence := acc.2 } →
      AcksBacked C { n.storage.inner with toEvidence :=
        (l.foldl (applyNext reserve n.storage.inner) acc).2 } := by
    intro l
    induction l with
    | nil => intro _ acc H; exact H
    | cons e l ih =>
      intro hl acc H
      refine ih (fun e he => hl e (mem_cons_of_mem _ he)) (applyNext reserve n.storage.inner acc e) ?_
      obtain ⟨res, i⟩ := e
      rcases res with err | ⟨- | incoming⟩
      · exact H
      · exact H
      · obtain ⟨ack, hack, hvalid⟩ := hl _ mem_cons_self incoming rfl
        unfold applyNext
        dsimp only
        cases happly : acc.2.applyAckLocked (fun point => reserve (2 * i + point)) n.storage.inner.toRecords
          incoming with
        | error err => exact H
        | ok out => exact AcksBacked.applyOne R hC hack H hvalid happly
  refine key _ (fun e he incoming hok => ?_) _ H
  exact hvalidated e.1 (fst_mem_of_mem_zipIdx he) incoming hok

/-- The record of a frontier is applied. -/
theorem AcksBacked.applyFrontier {whole : Bool} (H : AcksBacked C n.storage.inner)
    (hcert : ∀ g id, whole = true → id ∈ n.storage.inner.listOpIds t → Attests E n p t g id op)
    (hfrontier : frontierAck n.storage.inner whole p t = .ok incoming) {k : ℕ}
    (h : applyPeerAck reserve n.storage.inner incoming = .ok (k, v')) :
    AcksBacked C { n.storage.inner with toEvidence := v' } := by
  obtain ⟨rfl, rfl, st, hst, -, B⟩ := frontierAck_backed R hfrontier
  refine AcksBacked.apply H hst (B.mono (fun id hid => ?_) subset_rfl) h
  exact hC _ _ _ _ ⟨⟨st, hst, rfl⟩, hcert _ id hid.1 hid.2⟩

end Step

/-- **One call keeps every stored ack backed**, by what was certified before or by the call itself. -/
theorem AcksBacked.step (H : NodeOK E n) (ev : NodeEvent)
    (hC : ∀ p t g id, Certifies E n ev.op p t g id → C p t g id) (hacks : AcksBacked C n.storage.inner) :
    AcksBacked C (n.step E ev).storage.inner := by
  have R : RecordsOK E n.storage.inner.toRecords := H.main.records
  rcases Node.step_moves H ev with hmoves | ⟨hev, -⟩
  · exact hacks.keep (NodeMoves.keepsAcks H hmoves)
  · obtain ⟨op, peers⟩ := ev
    cases op with
    | applyAck signed ack =>
      unfold Node.step Node.apply Node.withEvidence
      dsimp only
      cases happly : applyAck E n.peer (E.reserve n.writes) n.storage.inner signed ack with
      | error e => exact hacks
      | ok v' =>
        unfold applyAck at happly
        simp only [bind_eq_ok] at happly
        obtain ⟨⟨⟩, hsigned, validated, hvalid, happly⟩ := happly
        cases validated with
        | none => cases happly; exact hacks
        | some incoming =>
          simp only [bind_eq_ok, pure_eq_ok] at happly
          obtain ⟨⟨k, v₁⟩, happly, rfl⟩ := happly
          rw [hsigned] at hC
          exact AcksBacked.applyOne R hC (.one _ _) hacks hvalid happly
    | applyAcks acks => exact AcksBacked.applyMany R hC rfl hacks
    | recordPeerSynced whole member t =>
      unfold Node.step Node.apply Node.withEvidence
      dsimp only
      cases hrec : recordPeerSynced (E.reserve n.writes) n.storage.inner whole member t with
      | error e => exact hacks
      | ok v' =>
        unfold recordPeerSynced at hrec
        simp only [bind_eq_ok, pure_eq_ok] at hrec
        obtain ⟨incoming, hfrontier, ⟨k, v₁⟩, happly, rfl⟩ := hrec
        refine AcksBacked.applyFrontier R hC hacks (fun g id hwhole hid => ?_) hfrontier happly
        subst hwhole
        exact .told hid
    | recordFingerprint whole member t fingerprint =>
      unfold Node.step Node.apply Node.withEvidence
      dsimp only
      cases hrec : recordFingerprint E (E.reserve n.writes) n.storage.inner whole member t fingerprint with
      | error e => exact hacks
      | ok out =>
        unfold recordFingerprint at hrec
        simp only [bind_eq_ok] at hrec
        obtain ⟨incoming, hfrontier, hrec⟩ := hrec
        split at hrec
        · cases hrec
          exact hacks
        · rename_i hmatch
          simp only [bind_eq_ok, pure_eq_ok] at hrec
          obtain ⟨⟨k, v₁⟩, happly, rfl⟩ := hrec
          refine AcksBacked.applyFrontier R hC hacks (fun g id hwhole hid => ?_) hfrontier happly
          obtain ⟨-, -, -, -, hparts, -⟩ := frontierAck_backed R hfrontier
          obtain ⟨hheads, hclock⟩ := hparts hwhole
          subst hwhole
          have hfp : fingerprint = n.storage.inner.topicFingerprintOf E t := by
            rw [R.fingerprint, ← hheads, ← hclock]
            exact (not_not.1 hmatch).symm
          rw [hfp]
          exact .matched hid
    | _ => exact hev.elim

/-- Some call of the run certified the op, on the branch `g`. -/
def CertifiedIn (E : Env) (peer : PeerId) (limits : StagingLimits) (evs : List NodeEvent) (p : PeerId)
    (t : TopicId) (g id : OpId) : Prop :=
  ∃ before ev after, evs = before ++ ev :: after ∧
    Certifies E ((Node.fresh peer limits).run E before) ev.op p t g id

theorem CertifiedIn.snoc {peer : PeerId} {limits : StagingLimits} {evs : List NodeEvent}
    (h : CertifiedIn E peer limits evs p t g id) (ev : NodeEvent) :
    CertifiedIn E peer limits (evs ++ [ev]) p t g id := by
  obtain ⟨before, ev', after, rfl, hcert⟩ := h
  exact ⟨before, ev', after ++ [ev], by simp, hcert⟩

/-- **Every stored ack of a reachable node is backed** by the calls of its run. -/
theorem acksBacked_run (peer : PeerId) (limits : StagingLimits) (evs : List NodeEvent) :
    AcksBacked (CertifiedIn E peer limits evs) ((Node.fresh peer limits).run E evs).storage.inner := by
  induction evs using List.reverseRecOn with
  | nil =>
    intro p t ack hack
    simp [Node.run, Node.fresh] at hack
  | append_singleton evs ev ih =>
    rw [Node.run_append]
    refine AcksBacked.step (nodeOK_run peer limits evs) ev (fun p t g id hcert => ⟨evs, ev, [], rfl, hcert⟩) ?_
    exact ih.mono fun p t g id h => h.snoc ev

/-- A position the evidence covers is that of a certified op. -/
theorem AcksBacked.reached (R : RecordsOK E inner.toRecords) (H : AcksBacked C inner)
    (h : peerReachedOp inner p id = true) :
    ∃ m st, inner.metas[id]? = some m ∧ inner.topicState m.topicId = some st ∧ C p m.topicId st.genesis id := by
  unfold peerReachedOp at h
  cases hm : inner.metas[id]? with
  | none => rw [hm] at h; cases h
  | some m =>
    rw [hm] at h
    dsimp only at h
    split at h
    · rename_i state ack hstate hack
      obtain ⟨st, hst, B⟩ := H p m.topicId ack hack
      refine ⟨m, st, rfl, hst, ?_⟩
      unfold ackReachedOp at h
      obtain ⟨-, hhead | hclock⟩ := of_decide_eq_true h
      · exact B.heads id hhead
      · obtain ⟨op, hop, rfl, M⟩ := R.meta_spec hm
        have hmem : op ∈ inner.toRecords.admitted m.topicId := ⟨hop, by rw [M.eq]; rfl⟩
        obtain ⟨g, γ, -, -, hbranch⟩ := R.branch_of_mem hmem
        have h1 : 1 ≤ m.actorSeq := by
          rw [M.eq]
          exact (hbranch.chained op hmem).1
        obtain ⟨x, hx, hxa, hxs, hcert⟩ := B.clock _ _ h1 hclock
        -- a branch has one op at a position
        have hxop : x = op := hbranch.slots x hx op hmem (by rw [hxa, M.eq]; rfl) (by rw [hxs, M.eq]; rfl)
        exact hxop ▸ hcert
    · cases h

/-- The members the loop of `topic_observed_clock` went over have an ack of the branch that covers what is
left. -/
theorem observedBy_le {peers : List PeerId} {clock : ActorClock} {a : ActorId} {s : ℕ} (h1 : 1 ≤ s)
    (hs : s ≤ (observedBy inner t g peers clock).get a) :
    s ≤ clock.get a ∧ ∀ q ∈ peers, ∃ ack, inner.peerAcks[(q, t)]? = some ack ∧ ack.genesis = some g ∧
      s ≤ ack.clock.get a := by
  induction peers generalizing clock with
  | nil => exact ⟨hs, by simp⟩
  | cons q peers ih =>
    unfold observedBy at hs
    split at hs
    · rename_i ack hack
      obtain ⟨hack, hgenesis⟩ := Option.filter_eq_some_iff.1 hack
      obtain ⟨hle, hrest⟩ := ih hs
      have hmin := hle.trans (ActorClock.get_intersect_le clock ack.clock a)
      refine ⟨hmin.trans (min_le_left _ _), fun q' hq' => ?_⟩
      rcases mem_cons.1 hq' with rfl | hq'
      · exact ⟨ack, hack, of_decide_eq_true hgenesis, hmin.trans (min_le_right _ _)⟩
      · exact hrest q' hq'
    · rw [ActorClock.get_empty] at hs
      omega

/-- **Evidence is sound.** What `peer_reached_op` affirms was certified on the current branch by some call of
the run, and every position `topic_observed_clock` covers is that of an op which is so certified for every
other member. -/
theorem evidence_sound (peer : PeerId) (limits : StagingLimits) (evs : List NodeEvent) (inner : MemoryInner)
    (hinner : inner = ((Node.fresh peer limits).run E evs).storage.inner) :
    (∀ p id, peerReachedOp inner p id = true → ∃ m st, inner.metas[id]? = some m ∧
      inner.topicState m.topicId = some st ∧ CertifiedIn E peer limits evs p m.topicId st.genesis id) ∧
    ∀ t clock, topicObservedClock peer inner t = .ok clock → ∃ st, inner.topicState t = some st ∧
      ∀ a s, 1 ≤ s → s ≤ clock.get a → ∃ op ∈ inner.toRecords.admitted t, op.body.actorId = a ∧
        op.body.actorSeq = s ∧ ∀ q ∈ st.members, q ≠ peer → peerReachedOp inner q op.id = true ∧
          CertifiedIn E peer limits evs q t st.genesis op.id := by
  have hbacked : AcksBacked (CertifiedIn E peer limits evs) inner := hinner ▸ acksBacked_run peer limits evs
  have R : RecordsOK E inner.toRecords := hinner ▸ (nodeOK_run peer limits evs).main.records
  refine ⟨fun p id h => hbacked.reached R h, fun t clock h => ?_⟩
  unfold topicObservedClock at h
  cases hst : inner.topicState t with
  | none => rw [hst] at h; cases h
  | some st =>
    rw [hst] at h
    cases h
    refine ⟨st, rfl, fun a s h1 hs => ?_⟩
    obtain ⟨hown, hmembers⟩ := observedBy_le h1 hs
    obtain ⟨op, hop, hactor, hseq⟩ := (R.clock t a s h1).1 hown
    obtain ⟨m, hm, M⟩ := R.hasMeta op.id op hop.1
    refine ⟨op, hop, hactor, hseq, fun q hq hne => ?_⟩
    obtain ⟨ack, hack, hgenesis, hle⟩ := hmembers q (List.mem_filter.2 ⟨mem_toList.2 hq, by simpa using hne⟩)
    have htopic : m.topicId = t := by rw [M.eq]; exact hop.2
    have hreached : peerReachedOp inner q op.id = true := by
      have hstate : inner.topicState t = some st := hst
      unfold Records.topicState at hstate
      obtain ⟨state, hstate, heq⟩ := Option.map_eq_some_iff.1 hstate
      have hgen : state.genesis = st.genesis := by rw [← heq]
      unfold peerReachedOp
      rw [hm]
      dsimp only
      rw [htopic, hstate, hack]
      dsimp only [ackReachedOp]
      refine decide_eq_true ⟨by rw [hgen]; exact hgenesis, Or.inr ?_⟩
      rw [M.eq]
      show op.body.actorSeq ≤ ack.clock.get op.body.actorId
      rw [hactor, hseq]
      exact hle
    obtain ⟨m', st', hm', hst', hcert⟩ := hbacked.reached R hreached
    obtain rfl : m' = m := Option.some.inj (hm'.symm.trans hm)
    rw [htopic] at hst' hcert
    obtain rfl : st' = st := Option.some.inj (hst'.symm.trans hst)
    exact ⟨hreached, hcert⟩

/-- Peer 2 says it holds its own event, which stands above the genesis. -/
def pairAck : SyncAck where
  topicId := IdType.ofNat 1
  peerId := IdType.ofNat 2
  genesis := some pairGenesis.id
  accepted := ∅
  heads := ExtTreeSet.ofList [pairEvent.id] compare
  clock := ((∅ : ActorClock).observe pairGenesis.body.actorId 1).observe pairEvent.body.actorId 1

/-- Peer 1 holds the genesis and the event, and peer 2 acknowledges both. -/
def pairAckRun : List NodeEvent :=
  [{ op := .receiveOps none [pairGenesis, pairEvent] none }, { op := .applyAck (.ok ()) pairAck }]

/-- The store after the ack. -/
def pairAckInner : MemoryInner := ((Node.fresh (IdType.ofNat 1) .memory).run pairEnv pairAckRun).storage.inner

theorem evidence_sound_pair :
    ∃ m st, pairAckInner.metas[pairGenesis.id]? = some m ∧ pairAckInner.topicState m.topicId = some st ∧
    CertifiedIn pairEnv (IdType.ofNat 1) .memory pairAckRun
      (IdType.ofNat 2) m.topicId st.genesis pairGenesis.id := by
  have hreached : peerReachedOp pairAckInner (IdType.ofNat 2) pairGenesis.id = true := by decide +kernel
  exact (evidence_sound (IdType.ofNat 1) .memory pairAckRun pairAckInner rfl).1 _ _ hreached

end Irokle
