import Irokle.Proof.Node
import Irokle.Proof.Obligations

/-!
# Activation is all or nothing

`activate_namespace` writes to the locked records only after its last step that can be refused. On success
the topic reads in the active records as it did in the namespace, no other topic changes, every namespace
of the topic ends for good, and the ops buffered on the branch move to the active buffer.

A moved op keeps the waits of its own namespace that are still open. These are its unresolved
dependencies exactly when the dependencies it no longer waits for are at hand after the activation
(`WaitsKept`); a dependency that only its own namespace held is forgotten.

* `keyed_node` — the evidence of a reachable node is filed by topic and peer;
* `activation_exact` — what an activation leaves, and when it moves every op with the right waits;
* `activation_forgets` — a reachable store where it does not.
-/

namespace Irokle

open Std Outcome Causal Relation

variable {E : Env} {n n' : Node} {s s' : MemoryStorage} {p : ProvisionalTopic} {ns : Namespace}
  {expected : TopicState} {effects : AdmissionEffects} {reserve : ℕ → Result Unit}
  {changes : BTreeMap (PeerId × ObligationKind) SyncObligation} {moves : List (ℕ × OpId × BTreeSet OpId)}

/-! ## The evidence of a node -/

/-- One ack is applied. -/
def AppliesAck (r : Records) (v v' : Evidence) : Prop :=
  ∃ reserve ack k, v.applyAckLocked reserve r ack = .ok (k, v')

theorem Evidence.Keyed.applies {r : Records} {v v' : Evidence} (H : v.Keyed)
    (h : ReflTransGen (AppliesAck r) v v') :
    v'.Keyed := by
  induction h with
  | refl => exact H
  | tail _ h ih =>
    obtain ⟨reserve, ack, k, h⟩ := h
    exact ((applyAckLocked_post ih).of_ok h).keyed

theorem applyAcks_applies {inner : MemoryInner} {peer : PeerId} (acks : List (Result Unit × SyncAck)) :
    ReflTransGen (AppliesAck inner.toRecords) inner.toEvidence (applyAcks E peer reserve inner acks).2 := by
  unfold applyAcks
  dsimp only
  generalize (acks.map fun a => a.1.bind fun _ => validateAck E peer inner.toRecords a.2).zipIdx = l
  have key : ∀ acc : List (Result Unit) × Evidence,
      ReflTransGen (AppliesAck inner.toRecords) acc.2 (l.foldl (applyNext reserve inner) acc).2 := by
    induction l with
    | nil => exact fun _ => .refl
    | cons e l ih =>
      refine fun acc => .trans ?_ (ih (applyNext reserve inner acc e))
      unfold applyNext
      split
      · exact .refl
      · exact .refl
      · split
        · rename_i k v happly
          exact .single ⟨_, _, k, happly⟩
        · exact .refl
  exact key ([], inner.toEvidence)

/-- A call that records evidence applies acks. -/
theorem Node.step_applies (ev : NodeEvent) (hev : ev.op.Evidential) :
    ReflTransGen (AppliesAck n.storage.inner.toRecords) n.storage.inner.toEvidence
      (n.step E ev).storage.inner.toEvidence := by
  obtain ⟨op, peers⟩ := ev
  cases op with
  | applyAck signed ack =>
    unfold Node.step Node.apply Node.withEvidence
    dsimp only
    cases h : applyAck E n.peer (E.reserve n.writes) n.storage.inner signed ack with
    | error e => exact .refl
    | ok v' =>
      simp only [applyAck, bind_eq_ok] at h
      obtain ⟨-, -, validated, -, h⟩ := h
      cases validated with
      | none => cases h; exact .refl
      | some incoming =>
        simp only [bind_eq_ok, pure_eq_ok] at h
        obtain ⟨⟨k, v₁⟩, h, rfl⟩ := h
        exact .single ⟨_, _, k, h⟩
  | applyAcks acks => exact applyAcks_applies acks
  | recordPeerSynced whole member t =>
    unfold Node.step Node.apply Node.withEvidence
    dsimp only
    cases h : recordPeerSynced (E.reserve n.writes) n.storage.inner whole member t with
    | error e => exact .refl
    | ok v' =>
      simp only [recordPeerSynced, bind_eq_ok, pure_eq_ok] at h
      obtain ⟨incoming, -, ⟨k, v₁⟩, h, rfl⟩ := h
      exact .single ⟨_, _, k, h⟩
  | recordFingerprint whole member t fingerprint =>
    unfold Node.step Node.apply Node.withEvidence
    dsimp only
    cases h : recordFingerprint E (E.reserve n.writes) n.storage.inner whole member t fingerprint with
    | error e => exact .refl
    | ok out =>
      simp only [recordFingerprint, bind_eq_ok] at h
      obtain ⟨incoming, -, h⟩ := h
      split at h
      · cases h
        exact .refl
      · simp only [bind_eq_ok, pure_eq_ok] at h
        obtain ⟨⟨k, v₁⟩, h, rfl⟩ := h
        exact .single ⟨_, _, k, h⟩
  | _ => exact hev.elim

/-- One move keeps the evidence of the active records keyed. -/
theorem NodeMove.keyed (H : NodeOK E n) (h : NodeMove E n n') (K : n.storage.inner.toEvidence.Keyed) :
    n'.storage.inner.toEvidence.Keyed := by
  cases h with
  | ticked writes => exact K
  | @called view inner log hlock hsteps hview =>
    cases view with
    | none =>
      cases hlock
      have L := H.main
      show log.inner.toEvidence.Keyed
      clear hview
      induction hsteps with
      | refl => exact K
      | tail hsteps hstep ih =>
        obtain ⟨-, accepted, evictions, hreported⟩ := hstep False (logSteps_ok hsteps L)
        exact hreported.keyed ih
    | some v =>
      unfold Node.settle MemoryStorage.release
      dsimp only
      split <;> exact K
  | stored ev hup writes => exact keyed_step H.storageOK K ev

/-- **The evidence of every reachable node is keyed**: each record is stored under its own topic, peer and
kind. -/
theorem keyed_node (peer : PeerId) (limits : StagingLimits) (evs : List NodeEvent) :
    ((Node.fresh peer limits).run E evs).storage.inner.toEvidence.Keyed := by
  induction evs using List.reverseRecOn with
  | nil => exact Evidence.keyed_empty
  | append_singleton evs ev ih =>
    rw [Node.run_append]
    have H : NodeOK E ((Node.fresh peer limits).run E evs) := nodeOK_run peer limits evs
    generalize (Node.fresh peer limits).run E evs = n at ih H
    show (n.step E ev).storage.inner.toEvidence.Keyed
    rcases Node.step_moves H ev with h | ⟨hev, -⟩
    · generalize n.step E ev = n' at h
      induction h with
      | refl => exact ih
      | tail hmoves hmove ih => exact hmove.keyed (H.moves hmoves) ih
    · exact ih.applies (Node.step_applies ev hev)

/-- What writing obligations of one topic leaves of the others. -/
theorem Evidence.obligations_putAll {t : TopicId} {k : TopicId × PeerId} (hk : k.1 ≠ t) (l : List SyncObligation)
    (hl : ∀ o ∈ l, o.topicId = t) (v : Evidence) :
    (l.foldl Evidence.putObligationLocked v).obligations[k]? = v.obligations[k]? := by
  induction l generalizing v with
  | nil => rfl
  | cons o l ih =>
    rw [List.foldl_cons, ih fun o' ho' => hl o' (by simp [ho'])]
    unfold Evidence.putObligationLocked
    split
    · rfl
    · rw [ExtTreeMap.getElem?_insert, if_neg]
      rw [Std.compare_eq_iff_eq]
      exact fun h => hk (h ▸ hl o (by simp))

theorem Evidence.putAll_eq (l : List SyncObligation) (v : Evidence) : l.foldl Evidence.putObligationLocked v =
    { v with obligations := (l.foldl Evidence.putObligationLocked v).obligations } := by
  induction l generalizing v with
  | nil => rfl
  | cons o l ih =>
    rw [List.foldl_cons, ih]
    unfold Evidence.putObligationLocked
    split <;> rfl

/-! ## What an activation leaves -/

/-- `s` is the store of a reachable node. -/
def ReachedStorage (E : Env) (s : MemoryStorage) : Prop :=
  ∃ peer limits evs, s = ((Node.fresh peer limits).run E evs).storage

/-- What a successful activation of `p` leaves. -/
structure Activated (E : Env) (s : MemoryStorage) (p : ProvisionalTopic) (expected : TopicState)
    (effects : AdmissionEffects) (s' : MemoryStorage) : Prop where
  copied : ∃ ns, s.viewed p.viewKey = some ns ∧
    CopiedTopic E ns.inner.toRecords s.inner.toRecords p.topicId s'.inner.toRecords
  ended : ∀ k : PeerId × TopicId, s'.namespaces[k]? = if k.2 = p.topicId then none else s.namespaces[k]?
  refused : ∀ v ns, s.viewed v = some ns → v.topicId = p.topicId → ∀ evs,
    (s'.run E evs).lock (some v) = .error .staleIncarnation
  index : PendingOK s'.inner.toPendingIndex
  kept : ∀ (id : OpId) rec, s.inner.pendingRecords[id]? = some rec →
    s'.inner.pendingRecords[id]? = some rec ∧ s'.inner.pendingOps[id]? = s.inner.pendingOps[id]?
  fresh : ∀ (id : OpId) rec, s'.inner.pendingRecords[id]? = some rec → s.inner.pendingRecords[id]? = none →
    rec.topicId = p.topicId ∧ ∃ (k : PeerId × TopicId) (ns : Namespace) (op : Op) (old : PendingRecord),
      s.namespaces[k]? = some ns ∧ k.2 = p.topicId ∧ ns.topic.genesis = p.genesis ∧
      ns.inner.pendingOps[id]? = some op ∧ ns.inner.pendingRecords[id]? = some old ∧
      s'.inner.pendingOps[id]? = some op ∧
      rec = { old with missing := old.missing.filter fun d => !s'.inner.depResolvable d }
  rejected : s'.inner.rejected = s.inner.rejected
  effects : ∃ changes,
    mergedEffects s.inner.toEvidence p.topicId (some expected.genesis) effects.syncObligations ∅ = .ok changes ∧
    s'.inner.toEvidence = (changes.toList.map (·.2)).foldl Evidence.putObligationLocked s.inner.toEvidence
  obligations : ∀ k : TopicId × PeerId, k.1 ≠ p.topicId → s'.inner.obligations[k]? = s.inner.obligations[k]?
  rest : s' = { s with
    inner := { s.inner with
      toRecords := s'.inner.toRecords, toPendingIndex := s'.inner.toPendingIndex,
        obligations := s'.inner.obligations }
    namespaces := s'.namespaces }

/-- Every op buffered on the branch of `p` that is not admitted, buffered or behind a rejected op is moved,
and waits for exactly its dependencies that are not held. -/
def MovesExactly (s : MemoryStorage) (p : ProvisionalTopic) (s' : MemoryStorage) : Prop :=
  ∀ (k : PeerId × TopicId) ns, s.namespaces[k]? = some ns → k.2 = p.topicId → ns.topic.genesis = p.genesis →
    ∀ (id : OpId) op rec, ns.inner.pendingOps[id]? = some op → ns.inner.pendingRecords[id]? = some rec →
      s'.inner.depResolvable id = true ∨ (∃ old, s.inner.pendingRecords[id]? = some old) ∨
      rejectedIn s.inner p.topicId id rec = true ∨
      s'.inner.pendingOps[id]? = some op ∧ ∃ rec', s'.inner.pendingRecords[id]? = some rec' ∧
        ∀ d, d ∈ rec'.missing ↔ d ∈ op.body.deps ∧ s'.inner.depResolvable d = false

/-- Every dependency that an op about to move no longer waits for is held by the activated namespace or by the
active records. -/
def MemoryStorage.WaitsKept (s : MemoryStorage) (p : ProvisionalTopic) : Prop :=
  ∀ copied, s.viewed p.viewKey = some copied →
    ∀ (id : OpId) op rec, movingIn s.inner p.topicId (s.branchStores p.topicId p.genesis) id = some (op, rec) →
      resolvableWith copied.inner s.inner id = false → s.inner.pendingRecords[id]? = none →
      ∀ d ∈ op.body.deps, d ∉ rec.missing → resolvableWith copied.inner s.inner d = true

namespace Activation

variable (H : NodeOK E n) (A : Activation n.storage reserve p expected effects ns changes moves s')

include H A

/-- What the active buffer gains moved from a namespace of the branch. -/
theorem fresh_of {m : Moves} {id : OpId} {rec : PendingRecord}
    (I : MoveInv ns.inner n.storage.inner p.topicId
      (n.storage.branchStores p.topicId p.genesis) m s'.inner.toPendingIndex)
    (hrec : s'.inner.pendingRecords[id]? = some rec) (hnone : n.storage.inner.pendingRecords[id]? = none) :
    ∃ op old, movingIn n.storage.inner p.topicId (n.storage.branchStores p.topicId p.genesis) id =
      some (op, old) ∧ s'.inner.pendingOps[id]? = some op ∧
      rec = { old with missing := old.missing.filter fun d => !s'.inner.depResolvable d } := by
  have hid : id ∈ m.moved := by
    by_contra hid
    rw [(I.kept id hid).1, hnone] at hrec
    cases hrec
  obtain ⟨op, rec', hop, hrec', M⟩ := I.moved id hid
  obtain ⟨old, hmoving, heq⟩ := M.origin
  refine ⟨op, old, hmoving, hop, (Option.some.inj (hrec.symm.trans hrec')).trans ?_⟩
  rw [heq]
  simp only [A.depResolvable_eq H]

theorem activated (hkeyed : n.storage.inner.toEvidence.Keyed) : Activated E n.storage p expected effects s' := by
  obtain ⟨m, I, -⟩ := A.moveInv H.storageOK
  have hended : ∀ k : PeerId × TopicId, s'.namespaces[k]? = if k.2 = p.topicId then none
      else n.storage.namespaces[k]? := by
    intro k
    rw [A.eq, getElem?_filter_key]
    by_cases hk : k.2 = p.topicId <;> simp [hk]
  have hevidence : s'.inner.toEvidence =
      (changes.toList.map (·.2)).foldl Evidence.putObligationLocked n.storage.inner.toEvidence := by rw [A.eq]
  refine ⟨⟨ns, A.viewed, A.copiedTopic H⟩, hended, fun v ns' hv ht evs => ?_, I.ok, fun id rec hrec => ?_,
    fun id rec hrec hnone => ?_, I.rejected, ⟨changes, A.merged, hevidence⟩, fun k hk => ?_, ?_⟩
  · -- the entry is gone, and its session is never handed out again
    have hsession : v.session ≤ s'.sessions := by
      obtain ⟨hns', hsession⟩ := MemoryStorage.viewed_eq_some.1 hv
      rw [A.eq, ← hsession]
      exact H.sessions _ _ hns'
    have hnone : s'.viewed v = none := by
      refine MemoryStorage.viewed_eq_none.2 fun ns' hns' => ?_
      rw [hended, if_pos ht] at hns'
      cases hns'
    unfold MemoryStorage.lock
    dsimp only
    rw [(refused_run hsession hnone evs).1]
  · have hid : id ∉ m.moved := by
      intro hid
      obtain ⟨_, _, -, -, M⟩ := I.moved id hid
      exact absurd (hrec.symm.trans M.fresh) (by simp)
    exact ⟨(I.kept id hid).1.trans hrec, (I.kept id hid).2⟩
  · obtain ⟨op, old, hmoving, hop, rfl⟩ := A.fresh_of H I hrec hnone
    obtain ⟨staged, hstaged, hstop, hold, ht, -⟩ := movingIn_mem hmoving
    obtain ⟨k, nsk, hnsk, hk, hgenesis, rfl⟩ := MemoryStorage.mem_branchStores.1 hstaged
    exact ⟨ht, k, nsk, op, old, hnsk, hk, hgenesis, hstop, hold, hop, rfl⟩
  · have hobligations : s'.inner.obligations = s'.inner.toEvidence.obligations := rfl
    rw [hobligations, hevidence]
    have G := ((mergedEffects_gathers hkeyed effects.syncObligations ∅ ⟨by simp, by simp⟩).of_ok
      A.merged).gathered
    refine Evidence.obligations_putAll hk _ (fun o ho => ?_) _
    obtain ⟨⟨key, o'⟩, ho', rfl⟩ := List.mem_map.1 ho
    exact (G.keyed key o' (ExtTreeMap.mem_toList_iff_getElem?_eq_some.1 ho')).1
  · conv_lhs => rw [A.eq, Evidence.putAll_eq]
    rw [A.eq]

/-- The moved ops wait for the right dependencies exactly when nothing they no longer wait for is missing. -/
theorem movesExactly_iff : MovesExactly n.storage p s' ↔ n.storage.WaitsKept p := by
  obtain ⟨m, I, hplanned⟩ := A.moveInv H.storageOK
  constructor
  · intro hmoves copied hcopied id op rec hmoving hunres hfresh d hd hno
    obtain rfl : ns = copied := Option.some.inj (A.viewed.symm.trans hcopied)
    obtain ⟨staged, hstaged, hop, hrec, -, hnotrej⟩ := movingIn_mem hmoving
    obtain ⟨k, nsk, hnsk, hk, hgenesis, rfl⟩ := MemoryStorage.mem_branchStores.1 hstaged
    rcases hmoves k nsk hnsk hk hgenesis id op rec hop hrec with h | ⟨old, h⟩ | h | ⟨-, rec', hrec', hiff⟩
    · rw [A.depResolvable_eq H, hunres] at h
      cases h
    · exact absurd (hfresh.symm.trans h) (by simp)
    · rw [hnotrej] at h
      cases h
    · -- the record that moved is the one of the first store, filtered
      by_contra hopen
      rw [Bool.not_eq_true, ← A.depResolvable_eq H] at hopen
      obtain ⟨op', old, hmoving', -, rfl⟩ := A.fresh_of H I hrec' hfresh
      obtain ⟨-, rfl⟩ := Prod.mk.inj (Option.some.inj (hmoving.symm.trans hmoving'))
      exact hno (ExtTreeSet.mem_of_mem_filter ((hiff d).2 ⟨hd, hopen⟩))
  · intro hwaits k ns' hns' hk hgenesis id op rec hop hrec
    have hstaged : ns'.inner ∈ n.storage.branchStores p.topicId p.genesis :=
      MemoryStorage.mem_branchStores.2 ⟨k, ns', hns', hk, hgenesis, rfl⟩
    have L := H.staged k ns' hns'
    obtain ⟨op', hop', hid, htopic⟩ := L.buffer.ok.opOf id rec hrec
    obtain rfl : op' = op := Option.some.inj (hop'.symm.trans hop)
    have hrt : rec.topicId = p.topicId := by
      rw [← htopic, ← hk]
      exact (H.confined k ns' hns').pending id op' hop
    rcases hplanned ns'.inner hstaged id rec hrec hrt with hmoved | hres | hbuffered | hrejected
    · obtain ⟨op, rec', hops, hrec', M⟩ := I.moved id hmoved
      obtain ⟨old, hmoving, rfl⟩ := M.origin
      obtain ⟨staged, hstaged', hstop, hold, -⟩ := movingIn_mem hmoving
      obtain ⟨k₀, ns₀, hns₀, -, -, rfl⟩ := MemoryStorage.mem_branchStores.1 hstaged'
      have L₀ := H.staged k₀ ns₀ hns₀
      -- an id names one op, whichever namespace buffers it
      obtain rfl : op' = op := by
        obtain ⟨op₀, hop₀, hid₀, -⟩ := L₀.buffer.ok.opOf id old hold
        obtain rfl : op₀ = op := Option.some.inj (hop₀.symm.trans hstop)
        exact (L.pending id op' hop).2.1.eq_of_id (L₀.pending id op₀ hstop).2.1 (hid.trans hid₀.symm)
      refine Or.inr (Or.inr (Or.inr ⟨hops, _, hrec', fun d => ?_⟩))
      rw [BTreeSet.mem_filter, A.depResolvable_eq H]
      constructor
      · rintro ⟨hd, hno⟩
        exact ⟨L₀.waits id op' old hstop hold d hd, by simpa using hno⟩
      · rintro ⟨hd, hno⟩
        refine ⟨?_, by simp [hno]⟩
        by_contra hnot
        rw [hwaits ns A.viewed id op' old hmoving M.unresolved M.fresh d hd hnot] at hno
        cases hno
    · rw [A.depResolvable_eq H]
      exact Or.inl hres
    · exact Or.inr (Or.inl hbuffered)
    · exact Or.inr (Or.inr (Or.inl hrejected))

end Activation

/-- **An activation is all or nothing.** An error leaves the store as it was. A success leaves the topic in
the active records as the namespace had it and everything else as before, ends every namespace of the topic
for good, and moves the ops buffered on the branch; each waits for exactly its dependencies that are not held
when, and only when, nothing that one of them no longer waits for is missing. -/
theorem activation_exact (h : ReachedStorage E s) (p : ProvisionalTopic) (reserve : ℕ → Result Unit)
    (expected : TopicState) (effects : AdmissionEffects) (res : Result Unit) (s' : MemoryStorage)
    (hres : s.activateNamespace reserve p expected effects = (res, s')) :
    (∀ e, res = .error e → s' = s) ∧
      (res = .ok () → Activated E s p expected effects s' ∧ (MovesExactly s p s' ↔ s.WaitsKept p)) := by
  obtain ⟨peer, limits, evs, rfl⟩ := h
  have H : NodeOK E ((Node.fresh peer limits).run E evs) := nodeOK_run peer limits evs
  have hkeyed := keyed_node (E := E) peer limits evs
  generalize (Node.fresh peer limits).run E evs = n at H hkeyed hres
  obtain ⟨e, rfl, rfl⟩ | ⟨rfl, ns, changes, moves, A⟩ := activateNamespace_cases hres
  · exact ⟨fun _ _ => rfl, nofun⟩
  · exact ⟨nofun, fun _ => ⟨A.activated H hkeyed, A.movesExactly_iff H⟩⟩

/-! ## A dependency that is forgotten

Peers 2 and 3 stage one topic for peer 1. An op from peer 2 waits for op 3 alone, since op 2 is in its
own namespace; the namespace of peer 3 holds the genesis only. -/

/-- Peer 2 founds the topic with peer 3. -/
def splitGenesis : Op :=
  tableOp 1 2 1 none [] 0 (.genesis ⟨"note", ExtTreeSet.ofList [IdType.ofNat 2, IdType.ofNat 3] compare, ⟨∅, 8⟩⟩)

/-- What peer 2 writes first. -/
def splitFirst : Op := tableOp 2 2 2 (some 1) [1] 1 (.event ⟨"note", []⟩)

/-- An op of peer 3, which nobody sends. -/
def splitWithheld : Op := tableOp 3 3 1 none [1] 1 (.event ⟨"note", []⟩)

/-- What peer 2 writes once it saw the other two. -/
def splitWaiting : Op := tableOp 4 2 3 (some 2) [2, 3] 2 (.event ⟨"note", []⟩)

/-- The environment that knows the four ops. -/
def splitEnv : Env := Env.ofTable ([splitGenesis, splitFirst, splitWithheld, splitWaiting].map (·.signed))

/-- Peer 2 sends all it has, and peer 3 the genesis. -/
def splitRun : List NodeEvent :=
  [{ op := .receiveSync (IdType.ofNat 2) (IdType.ofNat 1) [splitGenesis, splitFirst, splitWaiting] 0 },
    { op := .receiveSync (IdType.ofNat 3) (IdType.ofNat 1) [splitGenesis] 0 }]

/-- The store after both calls. -/
def splitStorage : MemoryStorage := ((Node.fresh (IdType.ofNat 1) .memory).run splitEnv splitRun).storage

/-- The namespaces of peers 2 and 3. -/
def splitTopic (source session : ℕ) : ProvisionalTopic :=
  ⟨IdType.ofNat source, IdType.ofNat 1, splitGenesis.id, session, 0, false, 0, 0⟩

/-- The state a namespace holds. -/
def splitState (source session : ℕ) : TopicState :=
  ((splitStorage.viewed (splitTopic source session).viewKey).bind fun ns =>
    ns.inner.topicState (IdType.ofNat 1)).getD (genesisState splitGenesis ⟨"note", ∅, ⟨∅, 8⟩⟩)

theorem splitStorage_reached : ReachedStorage splitEnv splitStorage := by
  unfold splitStorage
  exact ⟨_, _, _, rfl⟩

/-- Activating the namespace of peer 2 moves the waiting op as it should. -/
theorem activation_exact_split :
    ∃ s', splitStorage.activateNamespace (fun _ => .ok ()) (splitTopic 2 1) (splitState 2 1) ⟨[]⟩ = (.ok (), s') ∧
    Activated splitEnv splitStorage (splitTopic 2 1) (splitState 2 1) ⟨[]⟩ s' ∧
    MovesExactly splitStorage (splitTopic 2 1) s' ∧ s'.inner.pendingRecords[splitWaiting.id]?.map (·.missing) =
      some {splitWithheld.id} := by
  have hok : (splitStorage.activateNamespace (fun _ => .ok ()) (splitTopic 2 1) (splitState 2 1) ⟨[]⟩).1 =
      .ok () := by
    decide +kernel
  have hmoved : (splitStorage.activateNamespace (fun _ => .ok ()) (splitTopic 2 1) (splitState 2 1)
    ⟨[]⟩).2.inner.pendingRecords[splitWaiting.id]?.map
      (·.missing) = some {splitWithheld.id} := by
    decide +kernel
  have hheld : ((splitStorage.viewed (splitTopic 2 1).viewKey).all fun copied =>
      (splitStorage.branchStores (splitTopic 2 1).topicId (splitTopic 2 1).genesis).all fun staged =>
        staged.pendingRecords.toList.all fun e => staged.pendingOps[e.1]?.all fun op =>
          op.body.deps.toList.all fun d =>
          decide (d ∈ e.2.missing) || resolvableWith copied.inner splitStorage.inner d) = true := by
    decide +kernel
  simp only [Option.all_eq_true, List.all_eq_true, Prod.forall, ExtTreeMap.mem_toList_iff_getElem?_eq_some,
    ExtTreeSet.mem_toList, Bool.or_eq_true, decide_eq_true_eq] at hheld
  have hwaits : splitStorage.WaitsKept (splitTopic 2 1) := by
    intro copied hcopied id op rec hmoving _ _ d hd hno
    obtain ⟨staged, hstaged, hop, hrec, -⟩ := movingIn_mem hmoving
    exact (hheld copied hcopied staged hstaged id rec hrec op hop d hd).resolve_left hno
  generalize hrun : splitStorage.activateNamespace (fun _ => .ok ()) (splitTopic 2 1) (splitState 2 1) ⟨[]⟩ =
    out at hok hmoved ⊢
  obtain ⟨res, s'⟩ := out
  obtain rfl : res = .ok () := hok
  obtain ⟨hact, hiff⟩ := (activation_exact splitStorage_reached _ _ _ _ _ _ hrun).2 rfl
  exact ⟨s', rfl, hact, hiff.2 hwaits, hmoved⟩

/-- Activating the namespace of peer 3 moves it without the wait for op 2, which nothing active holds. -/
theorem activation_forgets :
    ∃ s', splitStorage.activateNamespace (fun _ => .ok ()) (splitTopic 3 2) (splitState 3 2) ⟨[]⟩ = (.ok (), s') ∧
      ¬MovesExactly splitStorage (splitTopic 3 2) s' := by
  have hok : (splitStorage.activateNamespace (fun _ => .ok ()) (splitTopic 3 2) (splitState 3 2) ⟨[]⟩).1 =
      .ok () := by
    decide +kernel
  have hleft : (fun s' : MemoryStorage => !s'.inner.depResolvable splitWaiting.id && !s'.inner.depResolvable
    splitFirst.id &&
      s'.inner.pendingRecords[splitWaiting.id]?.all fun rec => decide (splitFirst.id ∉ rec.missing))
      (splitStorage.activateNamespace (fun _ => .ok ()) (splitTopic 3 2) (splitState 3 2) ⟨[]⟩).2 = true := by
    decide +kernel
  have hstaged : (splitStorage.namespaces[((IdType.ofNat 2, IdType.ofNat 1) : PeerId × TopicId)]?.any fun ns =>
      decide (ns.topic.genesis = splitGenesis.id ∧ ns.inner.pendingOps[splitWaiting.id]? = some splitWaiting) &&
        ns.inner.pendingRecords[splitWaiting.id]?.any fun rec =>
        !rejectedIn splitStorage.inner (IdType.ofNat 1) splitWaiting.id rec) =
      true := by decide +kernel
  have hfresh : splitStorage.inner.pendingRecords[splitWaiting.id]? = none := by decide +kernel
  have hdep : splitFirst.id ∈ splitWaiting.body.deps := by decide +kernel
  generalize splitStorage.activateNamespace (fun _ => .ok ()) (splitTopic 3 2) (splitState 3 2) ⟨[]⟩ =
    out at hok hleft ⊢
  obtain ⟨res, s'⟩ := out
  obtain rfl : res = .ok () := hok
  refine ⟨s', rfl, fun hmoves => ?_⟩
  simp only [Bool.and_eq_true, Bool.not_eq_true', Option.all_eq_true, decide_eq_true_eq] at hleft
  obtain ⟨⟨hwaiting, hfirst⟩, hmissing⟩ := hleft
  simp only [Option.any_eq_true, Bool.and_eq_true, decide_eq_true_eq, Bool.not_eq_true'] at hstaged
  obtain ⟨ns, hns, ⟨hgenesis, hop⟩, rec, hrec, hnotrej⟩ := hstaged
  rcases hmoves _ ns hns rfl hgenesis _ _ rec hop hrec with h | ⟨old, hold⟩ | h | ⟨-, rec', hrec', hiff⟩
  · rw [hwaiting] at h
    cases h
  · rw [hfresh] at hold
    cases hold
  · exact absurd (hnotrej.symm.trans h) (by simp)
  · exact hmissing rec' hrec' ((hiff _).2 ⟨hdep, hfirst⟩)

end Irokle
