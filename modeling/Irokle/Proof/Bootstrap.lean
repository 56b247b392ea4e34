import Irokle.Proof.Activation

/-!
# No activation without membership

A topic the node does not hold gets its first state either from a batch whose genesis names the node
and the source, or from a namespace whose state lists both. The check of `bootstrap_unknown` looks
at the first genesis of the batch in the order it arrived, while the batch is admitted in its own
order; but a batch with two geneses is refused as a whole.

* `admitAttempts_ambiguous` — two geneses in one batch for a topic without a state are refused;
* `Node.bootstrapUnknown_cases` — what `bootstrap_unknown` can leave;
* `activation_proven` — where the first state of a topic comes from.
-/

namespace Irokle

open Std Outcome Causal Relation List ExtTreeSet

variable {E : Env} {V : View} {K : Prop} {n n' : Node} {log log' : Oplog} {t t' : TopicId} {ops : List Op}
  {verified : BTreeSet OpId}
  {source : Option PeerId} {effects : Option ReceiveEffects} {op g g' : Op} {st : TopicState}
  {p : ProvisionalTopic} {peers : SyncPeers} {res res' : Result Bootstrap} {src : PeerId} {now : ℕ}

/-! ## The first state a receive installs -/

/-- A receive installs a state only with a genesis of its own batch. -/
theorem receiveOpsAdmission_root {res : Result Admitted} (L : LogOK E K (fun _ => True) log)
    (hver : ∀ op ∈ ops, op.id ∈ verified → E.Valid op) (heff : EffectsOK effects)
    (hnone : log.inner.topicState t = none) (h : receiveOpsAdmission E V verified effects log source ops =
      some (res, log')) (hst : log'.inner.topicState t = some st) :
    ∃ g ∈ ops, isStructuralGenesis g = true ∧ g.body.topicId = t ∧ st.genesis = g.id := by
  -- whatever is buffered waited for something, so it is no genesis
  have L' : LogOK E K (fun op => op ∈ ops ∨ op.body.deps ≠ ∅) log :=
    ⟨L.records, L.buffer, L.cache, fun id op hop => ⟨Or.inr (L.pending id op hop).2.2, (L.pending id op hop).2⟩,
      L.waits, L.apart⟩
  obtain ⟨res', log₁, h', hreceives, -⟩ :=
    receiveOpsAdmission_spec V source L' (fun op hop => Or.inl hop) hver heff
  rw [h] at h'
  cases h'
  obtain ⟨accepted, evictions, hreported⟩ := hreceives.exists_reported
  obtain ⟨g, γ, B, hstate⟩ := hreceives.1.records.state t st hst
  have hP : g ∈ ops ∨ g.body.deps ≠ ∅ := by
    rcases hreported.stored g.id g B.root.1 with ⟨-, hP⟩ | hold
    · exact hP
    · have : g ∈ log.inner.toRecords.admitted t := ⟨hold, B.root.2⟩
      rw [L.records.noState t hnone] at this
      exact this.elim
  exact ⟨g, hP.resolve_right fun h => h B.root_links.1, B.structural, B.root.2, hstate.genesis⟩

/-- Without a state there is no genesis to collide with. -/
theorem resolveAttempt_noState (htopic : ∀ op ∈ ops, op.body.topicId = t)
    (hnone : log.inner.topicState t = none) :
    Oplog.resolveAttempt E log ops verified = (.ok (ops, none), log) := by
  unfold Oplog.resolveAttempt
  split
  · have hcollision : resolveGenesisCollision E log.inner.toRecords ops verified = .ok (ops, none, none) := by
      unfold resolveGenesisCollision
      split
      · rfl
      · rename_i genesis hfind
        rw [htopic genesis (mem_of_find?_eq_some hfind), hnone]
    rw [hcollision]
  · rfl

section Ambiguous

variable (hvalid : ∀ op ∈ ops, E.Valid op) (htopic : ∀ op ∈ ops, op.body.topicId = t) (hg : g ∈ ops)
  (hg' : g' ∈ ops) (hs : isStructuralGenesis g = true) (hs' : isStructuralGenesis g' = true) (hne : g ≠ g')

include hvalid htopic hg hg' hs hs' hne

omit htopic in
/-- Two geneses in one batch for a topic without a state are refused. -/
theorem admitOpsBatch_ambiguous (verified : BTreeSet OpId) (L : LogOK E K (fun _ => True) log)
    (heff : EffectsOK effects) (source : Option PeerId) (V : View) :
    ∃ e, log.admitOpsBatch E V source ops verified none effects = (.error e, log) ∧ e.Refuses True := by
  unfold Oplog.admitOpsBatch
  have hpost : Post (buildBatch E V log.writes log.inner.toRecords log.cache source ops verified false effects) _
    _ :=
    buildBatch_post L.records L.cache hvalid heff
  dsimp only
  rw [if_neg (by simp)]
  cases hbuild : buildBatch E V log.writes log.inner.toRecords log.cache source ops verified false effects with
  | error e =>
    refine ⟨e, ?_, hpost.of_error hbuild⟩
    rw [show (none : Option ResetPlan).isSome = false from rfl, hbuild]
  | ok built =>
    exfalso
    have hbuilt := hpost.of_ok hbuild
    cases built with
    | none =>
      dsimp only at hbuilt
      rw [hbuilt] at hg
      cases hg
    | some built =>
      obtain ⟨⟨t', rv, H⟩, -⟩ := hbuilt
      have R : RecordsOK E rv := H.batched.grows.ok (L.records.base false t')
      -- both would be the root of the one branch
      have hmem : ∀ x ∈ ops, isStructuralGenesis x = true → x ∈ rv.admitted t' := by
        intro x hx hsx
        obtain ⟨y, hy⟩ := H.genesis x hx hsx
        rw [R.eq_of_valid hy (hvalid x hx)] at hy
        exact ⟨hy, H.topic x hx⟩
      obtain ⟨root, γ, st, -, B⟩ := R.branch_of_mem (hmem g hg hs)
      obtain ⟨⟨γ₁, hγ₁⟩, -⟩ := isStructuralGenesis_iff.1 hs
      obtain ⟨⟨γ₂, hγ₂⟩, -⟩ := isStructuralGenesis_iff.1 hs'
      exact hne ((B.eq_root_of_payload (hmem g hg hs) hγ₁).trans
        (B.eq_root_of_payload (hmem g' hg' hs') hγ₂).symm)

theorem admitAttempts_ambiguous (heff : EffectsOK effects) (source : Option PeerId) (V : View) (attempts : ℕ)
    (L : LogOK E K (fun _ => True) log) (hnone : log.inner.topicState t = none) :
    ∃ res log', Oplog.admitAttempts E V source ops verified effects attempts log = (res, log') ∧
      ∃ e, res = .error e ∧ e.Refuses True := by
  induction attempts generalizing log with
  | zero => exact ⟨_, _, rfl, _, rfl, trivial⟩
  | succ attempts ih =>
    have L' := (Idle.ticked log).logOK L
    obtain ⟨e, hfails, he⟩ := admitOpsBatch_ambiguous hvalid hg hg' hs hs' hne verified L' heff source V
    have hresolve : Oplog.resolveAttempt E { log with writes := log.writes + 1 } ops verified = _ :=
      resolveAttempt_noState htopic hnone
    refine admitAttempts_step (fun e h => ⟨e, rfl, h.refuses⟩) (fun _ => ⟨_, rfl, trivial⟩) (fun e log₁ h => ?_)
      fun ops' plan log₁ res log₂ h hadmitted => ?_
    · cases hresolve.symm.trans h
    · cases hresolve.symm.trans h
      cases hfails.symm.trans hadmitted
      exact ⟨fun _ => ⟨e, rfl, he⟩, fun _ _ _ => ih L' hnone⟩

/-- **A batch with two geneses installs no state.** -/
theorem receiveOpsAdmission_ambiguous {res : Result Admitted} (L : LogOK E K (fun _ => True) log)
    (heff : EffectsOK effects) (hnone : log.inner.topicState t = none)
    (h : receiveOpsAdmission E V verified effects log source ops = some (res, log')) :
    log'.inner.topicState t = none := by
  have hver : ∀ op ∈ ops, op.id ∈ verified → E.Valid op := fun op hop _ => hvalid op hop
  obtain ⟨res₁, log₁, hspec, hs₁, -⟩ := admitWithRetry_spec V source L (fun _ _ => trivial) hver heff
  have hrefused : ∃ res log₁, log.admitWithRetry E V source ops verified effects = (res, log₁) ∧
      ∃ e, res = .error e ∧ e.Refuses True := by
    unfold Oplog.admitWithRetry
    split
    · exact ⟨_, _, rfl, _, rfl, trivial⟩
    · dsimp only
      split
      · rename_i e hchecked
        exact ⟨_, _, rfl, e, rfl, (checkOps_post hver).of_error hchecked⟩
      · exact admitAttempts_ambiguous hvalid htopic hg hg' hs hs' hne heff source V _ L hnone
  obtain ⟨_, log₂, hrefused, e, rfl, he⟩ := hrefused
  rw [hspec] at hrefused
  cases hrefused
  have hquiet : Quiet log.inner log₁.inner := by
    cases e <;> first | exact hs₁.quiet | exact he.elim
  rw [receiveOpsAdmission_refused (ne_nil_of_mem hg) hspec] at h
  cases h
  show log'.inner.toRecords.topicState t = none
  rw [hquiet.records]
  exact hnone

end Ambiguous

/-- **The genesis a receive installs is the first of its batch**, in whatever order the batch came. -/
theorem receiveOpsAdmission_first {res : Result Admitted} (L : LogOK E K (fun _ => True) log)
    (hvalid : ∀ op ∈ ops, E.Valid op) (htopic : ∀ op ∈ ops, op.body.topicId = t') (heff : EffectsOK effects)
    (hnone : log.inner.topicState t = none) (h : receiveOpsAdmission E V verified effects log source ops =
      some (res, log')) (hst : log'.inner.topicState t = some st) :
    t' = t ∧ ∃ g, ops.find? isStructuralGenesis = some g ∧ st.genesis = g.id := by
  obtain ⟨g, hg, hs, hgt, hid⟩ := receiveOpsAdmission_root L (fun op hop _ => hvalid op hop) heff hnone h hst
  obtain rfl : t' = t := (htopic g hg).symm.trans hgt
  refine ⟨rfl, ?_⟩
  cases hfind : ops.find? isStructuralGenesis with
  | none => exact absurd hs (find?_eq_none.1 hfind g hg)
  | some first =>
    refine ⟨first, rfl, hid.trans (congrArg Op.id ?_)⟩
    by_contra hne
    have hnone' := receiveOpsAdmission_ambiguous hvalid htopic hg (mem_of_find?_eq_some hfind) hs
      (find?_some hfind) hne L heff hnone h
    rw [hnone'] at hst
    cases hst

/-- Draining the buffer installs no state. -/
theorem reconcileCall_noState (L : LogOK E K (fun _ => True) log) (hnone : log.inner.topicState t = none) :
    (Node.reconcileCall E V log).2.inner.topicState t = none := by
  have key : ∀ (fuel : ℕ) (log : Oplog) (accepted : BTreeSet OpId), LogOK E K (fun _ => True) log →
    log.inner.topicState t = none →
      ∀ res log', reconcilePasses E V fuel log accepted = some (res, log') → log'.inner.topicState t = none := by
    intro fuel
    induction fuel with
    | zero => intro log accepted _ _ res log' h; cases h
    | succ fuel ih =>
      intro log accepted L hnone res log' h
      unfold reconcilePasses at h
      cases hpass : receiveOps E V log none [] with
      | none => rw [hpass] at h; cases h
      | some pass =>
        obtain ⟨pass, log₁⟩ := pass
        have L₁ : LogOK E K (fun _ => True) log₁ :=
          (receiveOpsAdmission_logStep (by simp) (by intro; simp) hpass K L).1
        have hnone₁ : log₁.inner.topicState t = none := by
          refine Option.eq_none_iff_forall_ne_some.2 fun st hst => ?_
          obtain ⟨g, hg, -⟩ := receiveOpsAdmission_root L (by simp) (by intro; simp) hnone hpass hst
          cases hg
        rw [hpass] at h
        cases pass with
        | error e => cases h; exact hnone₁
        | ok pass =>
          dsimp only at h
          split at h
          · exact ih _ _ L₁ hnone₁ _ _ h
          · cases h; exact hnone₁
  unfold Node.reconcileCall
  cases h : reconcilePendingOps E V log with
  | none => exact hnone
  | some res => exact key _ _ _ L hnone _ _ h

/-! ## What `bootstrap_unknown` can leave -/

/-- The node has the same active records. -/
structure SameActive (n n' : Node) : Prop where
  peer : n'.peer = n.peer
  inner : n'.storage.inner = n.storage.inner

theorem SameActive.refl (n : Node) : SameActive n n := ⟨rfl, rfl⟩

theorem SameActive.trans {n₁ n₂ n₃ : Node} (h : SameActive n₁ n₂) (h' : SameActive n₂ n₃) : SameActive n₁ n₃ :=
  ⟨h'.peer.trans h.peer, h'.inner.trans h.inner⟩

/-- On the way from `n`, a namespace of the source is activated, and its state lists this node and the source. -/
structure Installs (E : Env) (n : Node) (src : PeerId) (t : TopicId) (n₁ : Node) (p : ProvisionalTopic)
    (state : TopicState) (s' : MemoryStorage) : Prop where
  before : SameActive n n₁
  reached : NodeMoves E n n₁
  topic : p.topicId = t
  source : p.source = src
  staged : ∃ ns, n₁.storage.viewed p.viewKey = some ns ∧ ns.inner.topicState t = some state
  members : n.peer ∈ state.members ∧ src ∈ state.members
  activated : ∃ reserve effects, n₁.storage.activateNamespace reserve p state effects = (.ok (), s')
  state : s'.inner.topicState t = some state

theorem Node.discard_same (p : ProvisionalTopic) : SameActive n (n.discard p).2 := by
  unfold Node.discard MemoryStorage.discardNamespace
  refine ⟨rfl, ?_⟩
  dsimp only
  split
  · split <;> rfl
  · rfl

theorem Node.foldl_same {α : Type} {f : Node → α → Node} (h : ∀ n a, SameActive n (f n a)) (l : List α)
    (n : Node) :
    SameActive n (l.foldl f n) := by
  induction l generalizing n with
  | nil => exact .refl n
  | cons a l ih => exact (h n a).trans (ih (f n a))

theorem Node.expireBootstraps_same (now : ℕ) : SameActive n (n.expireBootstraps now) := by
  refine Node.foldl_same (fun n p => ?_) _ n
  split
  · exact Node.discard_same p
  · exact .refl n

theorem Node.makeRoom_same (current : ProvisionalTopic) (incoming : ℕ) :
    SameActive n (n.makeRoom current incoming).2 := by
  unfold Node.makeRoom
  split
  · exact .refl n
  · exact Node.foldl_same (fun n p => Node.discard_same p) _ n

theorem Node.openProvisional_same (src : PeerId) (t : TopicId) (genesis : OpId) (now : ℕ) :
    SameActive n (n.openProvisional E src t genesis now).2 := by
  unfold Node.openProvisional
  have hpost : Post (n.storage.openNamespace (E.reserve n.writes 0) src t genesis now) _ _ := openNamespace_post
  cases hopen : n.storage.openNamespace (E.reserve n.writes 0) src t genesis now with
  | error e => exact ⟨rfl, rfl⟩
  | ok out =>
    obtain ⟨-, ⟨ns, -, rfl⟩ | ⟨-, topic, -, rfl⟩⟩ := hpost.of_ok hopen <;> exact ⟨rfl, rfl⟩

theorem Node.through_view_same {α : Type} (call : View → Oplog → Result α × Oplog) (v : ViewKey)
    (bound : Option (TopicId × OpId)) :
    SameActive n (n.through (some v) call bound).2 := by
  unfold Node.through
  split
  · exact .refl n
  · refine ⟨rfl, ?_⟩
    unfold Node.settle MemoryStorage.release
    dsimp only
    split <;> rfl

theorem Node.touch_same (p : ProvisionalTopic) (now : ℕ) :
    SameActive n { n with storage := n.storage.touchNamespace p now } := by
  refine ⟨rfl, ?_⟩
  unfold MemoryStorage.touchNamespace
  dsimp only
  split <;> rfl

/-- What a call that may bring up a topic without a state can leave: the active records as they were, or a state
installed from a namespace. -/
def Staged (E : Env) (n : Node) (src : PeerId) (t : TopicId) (res : Result Bootstrap) (n' : Node) : Prop :=
  SameActive n n' ∧ (∀ held, res ≠ .ok (.active held)) ∨
    ∃ n₁ p state s', Installs E n src t n₁ p state s' ∧
      n' = ({ n₁ with writes := n₁.writes + 1, storage := s' }.through none (Node.reconcileCall E) none).2

theorem Staged.of_same {n₁ : Node} (h : SameActive n n₁) (hmoves : NodeMoves E n n₁)
    (S : Staged E n₁ src t res n') :
    Staged E n src t res n' := by
  rcases S with ⟨hsame, hres⟩ | ⟨n₂, p, state, s', I, heq⟩
  · exact Or.inl ⟨h.trans hsame, hres⟩
  · exact Or.inr ⟨n₂, p, state, s', { I with
      before := h.trans I.before, reached := hmoves.trans I.reached, members := h.peer ▸ I.members }, heq⟩

theorem Node.activate_staged {effects : AdmissionEffects} {state : TopicState} {ns : Namespace} (H : NodeOK E n)
    (hnone : n.storage.inner.topicState p.topicId = none)
    (hns : n.storage.viewed p.viewKey = some ns) (hstate : ns.inner.topicState p.topicId = some state)
    (hmembers : n.peer ∈ state.members ∧ p.source ∈ state.members) :
    Staged E n p.source p.topicId (n.activate E p state effects).1 (n.activate E p state effects).2 := by
  unfold Node.activate
  rcases h : n.storage.activateNamespace (E.reserve n.writes) p state effects with ⟨res, s'⟩
  dsimp only
  cases res with
  | ok _ =>
    refine Or.inr ⟨n, p, state, s', ⟨.refl n, .refl, rfl, rfl, ⟨ns, hns, hstate⟩, hmembers, ⟨_, _, h⟩, ?_⟩, rfl⟩
    obtain ⟨ns', changes, moves, A⟩ := activateNamespace_eq_ok h
    have hcopied := (A.copiedTopic H).state p.topicId
    rw [if_pos rfl] at hcopied
    have hns' : ns' = ns := Option.some.inj (A.viewed.symm.trans hns)
    rw [hns'] at hcopied
    exact hcopied.trans hstate
  | error e =>
    obtain ⟨-, -, rfl⟩ | ⟨⟨⟩, -⟩ := activateNamespace_cases h
    cases e
    case admissionConflict =>
      dsimp only
      rw [if_pos (by rw [hnone]; rfl)]
      exact Or.inl ⟨⟨rfl, rfl⟩, by simp⟩
    all_goals exact Or.inl ⟨⟨rfl, rfl⟩, by simp⟩

theorem Node.activateProven_staged (H : NodeOK E n) (hnone : n.storage.inner.topicState p.topicId = none)
    (hactivating : p.activating = false) (peers : SyncPeers) :
    Staged E n p.source p.topicId (n.activateProven E peers p p.source).1
      (n.activateProven E peers p p.source).2 := by
  unfold Node.activateProven
  split
  · exact Or.inl ⟨.refl n, by simp⟩
  · rename_i ns hns
    split
    · exact Or.inl ⟨.refl n, by simp⟩
    · rename_i state hstate
      split
      · exact Or.inl ⟨.refl n, by simp⟩
      · rename_i hproven
        have hmembers : n.peer ∈ state.members ∧ p.source ∈ state.members := by
          by_contra hno
          exact hproven ⟨hno, hactivating⟩
        exact Node.activate_staged H hnone hns hstate hmembers

/-- The call's own result for the outcome of an activation: it never turns a refusal into a success. -/
theorem Staged.relabel (S : Staged E n src t res n')
    (h : ∀ held, res' = .ok (.active held) → ∃ held', res = .ok (.active held')) : Staged E n src t res' n' := by
  rcases S with ⟨hsame, hres⟩ | hinstalls
  · refine Or.inl ⟨hsame, fun held heq => ?_⟩
    obtain ⟨held', heq'⟩ := h held heq
    exact hres held' heq'
  · exact Or.inr hinstalls

/-- How `stage` relabels an outcome: an active topic holds the verified ops that resolve. -/
def Node.relabel (n : Node) (verified : BTreeSet OpId) : Bootstrap → Bootstrap
  | .active _ => .active (verified.filter fun id => n.storage.inner.depResolvable id)
  | .staged topic => .staged topic

theorem Node.stage_staged (H : NodeOK E n) (hnone : n.storage.inner.topicState p.topicId = none)
    (hactivating : p.activating = false) (hver : ∀ op ∈ ops, op.id ∈ verified → E.Valid op)
    (htopic : ∀ op ∈ ops, op.body.topicId = p.topicId) (peers : SyncPeers) (now : ℕ) :
    Staged E n p.source p.topicId (n.stage E peers p p.source ops verified now).1
      (n.stage E peers p p.source ops verified now).2 := by
  unfold Node.stage
  split
  · exact Or.inl ⟨.refl n, by simp⟩
  · rename_i ns hns
    have hroom := Node.makeRoom_same (n := n) p (Node.incomingBytes E ns.inner ops)
    have hmoves : NodeMoves E n (n.makeRoom p (Node.incomingBytes E ns.inner ops)).2 := Node.makeRoom_moves _ _
    split
    · rename_i h
      rw [h] at hroom
      exact Or.inl ⟨hroom, by simp⟩
    · rename_i n₁ h
      rw [h] at hroom hmoves
      dsimp only
      generalize hcall : n₁.through (some p.viewKey) (Node.receiveCall E verified none (some p.source) ops) none =
        out
      obtain ⟨admitted, n₂⟩ := out
      have hsame₂ : SameActive n₁ n₂ := by
        have := Node.through_view_same (n := n₁) (Node.receiveCall E verified none (some p.source) ops)
          p.viewKey none
        rwa [hcall] at this
      have hmoves₂ : NodeMoves E n₁ n₂ := by
        have : NodeMoves E n₁ (n₁.through (some p.viewKey)
          (Node.receiveCall E verified none (some p.source) ops) none).2 :=
          Node.through_view_moves _ _ (fun V log => Node.receiveCall_steps V log hver (by intro; simp))
            fun V log => Node.receiveCall_confines V log hver (by intro; simp) htopic
        rwa [hcall] at this
      dsimp only
      have hsame₃ := (hroom.trans hsame₂).trans (Node.touch_same p now)
      have hmoves₃ := (hmoves.trans hmoves₂).trans (Node.touch_moves p now)
      have H₃ := H.moves hmoves₃
      generalize ({ n₂ with storage := n₂.storage.touchNamespace p now } : Node) = n₃ at hsame₃ hmoves₃ H₃ ⊢
      have hnone₃ : n₃.storage.inner.topicState p.topicId = none := by rw [hsame₃.inner]; exact hnone
      have S := (Node.activateProven_staged H₃ hnone₃ hactivating peers).of_same hsame₃ hmoves₃
      generalize n₃.activateProven E peers p p.source = out at S
      obtain ⟨outcome, n₄⟩ := out
      -- the outcome keeps its kind, or is replaced by an error
      have hkind : ∀ held, outcome.map (n₄.relabel verified) = .ok (.active held) →
          ∃ held', outcome = .ok (.active held') := by
        intro held heq
        rcases outcome with e | ⟨held' | topic⟩
        · cases heq
        · exact ⟨held', rfl⟩
        · cases heq
      dsimp only at S ⊢
      split
      · exact S.relabel hkind
      all_goals exact S.relabel (by simp)

/-- What `bootstrap_unknown` can leave of a topic without a state: the active records as they were, with the
topic taken for active only when the first genesis of the fragment names both, or a state installed from a
namespace. -/
theorem Node.bootstrapUnknown_cases (H : NodeOK E n) (hnone : n.storage.inner.topicState t = none)
    (hver : ∀ op ∈ ops, op.id ∈ verified → E.Valid op) (htopic : ∀ op ∈ ops, op.body.topicId = t)
    (h : n.bootstrapUnknown E peers src t ops verified now = (res, n')) :
    Staged E n src t res n' ∨ SameActive n n' ∧ n.namesBoth src (ops.find? isStructuralGenesis) = true := by
  have hstage : ∀ {n₁ : Node} {p : ProvisionalTopic}, NodeMoves E n n₁ → SameActive n n₁ →
      p.source = src ∧ p.topicId = t ∧ p.activating = false →
      Staged E n src t (n₁.stage E peers p src ops verified now).1
      (n₁.stage E peers p src ops verified now).2 := by
    rintro n₁ p hmoves hsame ⟨rfl, rfl, hactivating⟩
    have hnone₁ : n₁.storage.inner.topicState p.topicId = none := by rw [hsame.inner]; exact hnone
    exact (Node.stage_staged (H.moves hmoves) hnone₁ hactivating hver htopic peers now).of_same hsame hmoves
  have hopened : ∀ {n₁ : Node} (genesis : OpId), NodeMoves E n n₁ → SameActive n n₁ →
    ∀ {out : Result Bootstrap × Node},
      n₁.openStage E peers src t genesis ops verified now = out → Staged E n src t out.1 out.2 := by
    intro n₁ genesis hmoves hsame out hout
    have hsame' := Node.openProvisional_same (E := E) (n := n₁) src t genesis now
    have hmoves' := Node.openProvisional_moves (E := E) (n := n₁) src t genesis now
    subst hout
    unfold Node.openStage
    split
    · rename_i heq
      rw [heq] at hsame'
      exact Or.inl ⟨hsame.trans hsame', by simp⟩
    · rename_i heq
      rw [heq] at hsame' hmoves'
      exact hstage (hmoves.trans hmoves') (hsame.trans hsame') (Node.openProvisional_entry (H.moves hmoves) heq)
  unfold Node.bootstrapUnknown at h
  rw [if_neg (by rw [hnone]; simp)] at h
  dsimp only at h
  have hexpire := Node.expireBootstraps_same (n := n) now
  have hexpired := Node.expireBootstraps_moves (E := E) (n := n) now
  split at h
  · rename_i hnames
    cases h
    refine Or.inr ⟨hexpire, ?_⟩
    have := hnames.1
    unfold Node.namesBoth at this ⊢
    rwa [hexpire.peer] at this
  · refine Or.inl ?_
    split at h
    · rename_i current hcurrent
      have hentry := Node.provisionalOf_entry (H.moves hexpired) hcurrent
      rw [hentry.2.2] at h
      rw [if_neg (by simp)] at h
      split at h
      · have := hstage hexpired hexpire hentry
        rwa [h] at this
      · rename_i genesis _
        split at h
        · have hsame := Node.discard_same (n := n.expireBootstraps now) current
          have hmoves := Node.discard_moves (E := E) (n := n.expireBootstraps now) current
          split at h
          · rename_i heq
            rw [heq] at hsame
            cases h
            exact Or.inl ⟨hexpire.trans hsame, by simp⟩
          · rename_i heq
            rw [heq] at hsame hmoves
            exact hopened genesis (hexpired.trans hmoves) (hexpire.trans hsame) h
        · split at h
          · cases h
            exact Or.inl ⟨hexpire, by simp⟩
          · have := hstage hexpired hexpire hentry
            rwa [h] at this
    · exact hopened _ hexpired hexpire h
    · cases h
      exact Or.inl ⟨hexpire, by simp⟩

/-! ## The first state of a topic -/

/-- The active records hold nothing of the topic. -/
structure NoRecord (r : Records) (t : TopicId) : Prop where
  state : r.topicState t = none
  ops : ∀ (id : OpId) op, r.ops[id]? = some op → op.body.topicId ≠ t
  metas : ∀ (id : OpId) m, r.metas[id]? = some m → m.topicId ≠ t
  listed : r.listOpIds t = ∅
  heads : r.headsOf t = ∅
  clock : r.clockOf t = ∅

/-- How a topic gets its first state in one call for the source `src` with the ops `ops`. -/
inductive FirstState (E : Env) (n : Node) (src : PeerId) (t : TopicId) (ops : List Op) (n' : Node) : Prop
  | named (g : Op) (hg : g ∈ ops) (hs : isStructuralGenesis g = true)
  (hadmitted : g ∈ n'.storage.inner.toRecords.admitted t)
      (hstate : ∃ st, n'.storage.inner.topicState t = some st ∧ st.genesis = g.id)
      (hnames : ∃ named, initialPeersOf g = some named ∧ n.peer ∈ named ∧ src ∈ named)
  | staged (n₁ : Node) (p : ProvisionalTopic) (state : TopicState) (s' : MemoryStorage)
      (hinstalls : Installs E n src t n₁ p state s')
      (hrest : NodeMoves E { n₁ with writes := n₁.writes + 1, storage := s' } n')

theorem RecordsOK.noRecord {r : Records} (R : RecordsOK E r) (h : r.topicState t = none) : NoRecord r t where
  state := h
  ops id op hop htopic := by
    have : op ∈ r.admitted t := ⟨by rw [R.opId id op hop]; exact hop, htopic⟩
    rw [R.noState t h] at this
    exact this
  metas id m hm htopic := by
    cases hop : r.ops[id]? with
    | none =>
      rw [R.hasOp id hop] at hm
      cases hm
    | some op =>
      obtain ⟨m', hm', M⟩ := R.hasMeta id op hop
      have hmm : m = m' := Option.some.inj (hm.symm.trans hm')
      have : op ∈ r.admitted t := by
        refine ⟨by rw [R.opId id op hop]; exact hop, ?_⟩
        rw [hmm, M.eq] at htopic
        exact htopic
      rw [R.noState t h] at this
      exact this
  listed := ext_mem fun id => by simp [R.topicOps, R.noState t h]
  heads := ext_mem fun id => by simp [R.heads, R.noState t h, Shape.heads]
  clock := R.clockOf_eq_empty h

/-- After an activation and the drain that follows it, another topic still has no state. -/
theorem Installs.noState {n₁ : Node} {state : TopicState} {s' : MemoryStorage} (H : NodeOK E n)
    (I : Installs E n src t' n₁ p state s') (hne : t' ≠ t) (hnone : n.storage.inner.topicState t = none) :
    (({ n₁ with writes := n₁.writes + 1, storage := s' }.through none
      (Node.reconcileCall E) none).2).storage.inner.topicState t = none := by
  have H₁ := H.moves I.reached
  obtain ⟨reserve, effects, h⟩ := I.activated
  obtain ⟨ns, changes, moves, A⟩ := activateNamespace_eq_ok h
  have hcopied := (A.copiedTopic H₁).state t
  rw [if_neg (by rw [I.topic]; exact hne.symm)] at hcopied
  have hnone' : s'.inner.topicState t = none := by
    refine hcopied.trans ?_
    show n₁.storage.inner.topicState t = none
    rw [I.before.inner]
    exact hnone
  have L : LogOK E False (fun _ => True)
    (Node.oplog { n₁ with writes := n₁.writes + 1, storage := s' } s'.inner) :=
    (A.logOK H₁).of_inner rfl H₁.main.cache
  exact reconcileCall_noState L hnone'

/-- A receive of a batch whose first genesis names both. -/
theorem Node.receive_first (H : NodeOK E n) (hvalid : ∀ op ∈ ops, E.Valid op)
    (htopic : ∀ op ∈ ops, op.body.topicId = t') (heff : EffectsOK effects)
    (hnone : n.storage.inner.topicState t = none)
    (h : (n.through none (Node.receiveCall E verified effects source ops) none).2.storage.inner.topicState t =
      some st) :
    t' = t ∧ ∃ g, ops.find? isStructuralGenesis = some g ∧ st.genesis = g.id := by
  have hver : ∀ op ∈ ops, op.id ∈ verified → E.Valid op := fun op hop _ => hvalid op hop
  obtain ⟨res, log', hrec, -⟩ :=
    receiveOpsAdmission_spec ⟨none, n.storage.quota none⟩ source H.main (fun _ _ => trivial) hver heff
  have hcall : (n.through none (Node.receiveCall E verified effects source ops) none).2 = n.settle none log' := by
    unfold Node.through Node.receiveCall MemoryStorage.lock
    dsimp only
    rw [hrec]
    rfl
  rw [hcall] at h
  exact receiveOpsAdmission_first H.main hvalid htopic heff hnone hrec h

/-- **One call gives a topic its first state only through a genesis that names both or a namespace whose state
lists both.** -/
theorem Node.receiveSync_first (H : NodeOK E n) (hnone : n.storage.inner.topicState t = none)
    (hst : (n.receiveSyncOutcome E peers src t' ops now).2.storage.inner.topicState t = some st) :
    t' = t ∧ FirstState E n src t ops (n.receiveSyncOutcome E peers src t' ops now).2 := by
  have hok : NodeOK E (n.receiveSyncOutcome E peers src t' ops now).2 :=
    H.moves (Node.receiveSyncOutcome_moves H src t' ops now)
  generalize hout : (n.receiveSyncOutcome E peers src t' ops now).2 = n' at hst hok ⊢
  have hkept : ∀ {n₁ : Node}, SameActive n n₁ → n₁ = n' → False := by
    rintro n₁ hsame rfl
    rw [hsame.inner, hnone] at hst
    cases hst
  unfold Node.receiveSyncOutcome at hout
  split at hout
  · exact (hkept (.refl n) hout).elim
  · rename_i hany
    have htopic : ∀ op ∈ ops, op.body.topicId = t' := by
      intro op hop
      by_contra hne
      exact hany (any_eq_true.2 ⟨op, hop, by simpa using hne⟩)
    split at hout
    · exact (hkept (.refl n) hout).elim
    · rename_i hchecked
      have hvalid : ∀ op ∈ ops, E.Valid op := forM_eq_ok.1 hchecked
      have hver : ∀ op ∈ ops, op.id ∈ (ExtTreeSet.ofList (ops.map (·.id)) compare : BTreeSet OpId) → E.Valid op :=
        fun op hop _ => hvalid op hop
      dsimp only at hout
      generalize hboot : n.bootstrapUnknown E peers src t' ops (ExtTreeSet.ofList (ops.map (·.id)) compare) now =
        out at hout
      obtain ⟨res, n₁⟩ := out
      have hmoves₁ : NodeMoves E n n₁ := by
        have := Node.bootstrapUnknown_moves H peers src t' now hver htopic
        rwa [hboot] at this
      -- whatever was brought up, the rest of the call is at most a receive of the batch
      have hrest : n' = n₁ ∨ (∃ held, res = .ok (.active held)) ∧ n' = (n₁.through none
          (Node.receiveCall E (ExtTreeSet.ofList (ops.map (·.id)) compare) (some (n₁.forwardEffects peers))
            (some src) ops) none).2 := by
        rcases res with e | ⟨held | topic⟩
        · exact Or.inl hout.symm
        · exact Or.inr ⟨⟨held, rfl⟩, hout.symm⟩
        · exact Or.inl hout.symm
      have hreceive : n₁.storage.inner.topicState t = none → n' ≠ n₁ → t' = t ∧
          ∃ g, ops.find? isStructuralGenesis = some g ∧ st.genesis = g.id := by
        intro hnone₁ hne
        obtain ⟨-, heq⟩ := hrest.resolve_left hne
        rw [heq] at hst
        exact Node.receive_first (H.moves hmoves₁) hvalid htopic Node.forwardEffects_ok hnone₁ hst
      have hsame : SameActive n n₁ → t' = t ∧ ∃ g, ops.find? isStructuralGenesis = some g ∧
          st.genesis = g.id := by
        intro hsame
        exact hreceive (by rw [hsame.inner]; exact hnone) fun heq => hkept hsame heq.symm
      cases hheld : n.storage.inner.topicState t' with
      | some st' =>
        -- the batch is of a topic the node holds, so its genesis is not one of `t`
        have hn₁ : n₁ = n := by
          unfold Node.bootstrapUnknown at hboot
          rw [hheld, if_pos (by rfl)] at hboot
          exact (congrArg Prod.snd hboot).symm
        subst hn₁
        obtain ⟨rfl, -⟩ := hsame (.refl _)
        rw [hnone] at hheld
        cases hheld
      | none =>
        rcases Node.bootstrapUnknown_cases H hheld hver htopic hboot with
          (⟨hkeep, hres⟩ | ⟨m, p, state, s', I, heq⟩) | ⟨hkeep, hnames⟩
        · rcases hrest with heq | ⟨⟨held, hactive⟩, -⟩
          · exact (hkept hkeep heq.symm).elim
          · exact (hres held hactive).elim
        · by_cases ht : t' = t
          · subst ht
            have hdrain : NodeMoves E { m with writes := m.writes + 1, storage := s' } n₁ := by
              rw [heq]
              exact Node.through_main_moves _ none Node.reconcileCall_steps
            have hlast : NodeMoves E n₁ n' := by
              rcases hrest with h | ⟨-, h⟩
              · rw [h]
              · rw [h]
                exact Node.through_main_moves _ _ fun V log =>
                  Node.receiveCall_steps V log hver Node.forwardEffects_ok
            exact ⟨rfl, .staged m p state s' I (hdrain.trans hlast)⟩
          · have hnone₁ : n₁.storage.inner.topicState t = none := by
              rw [heq]
              exact I.noState H ht hnone
            by_cases hn : n' = n₁
            · rw [hn, hnone₁] at hst
              cases hst
            · exact absurd (hreceive hnone₁ hn).1 ht
        · obtain ⟨rfl, g, hfind, hgenesis⟩ := hsame hkeep
          have hg := mem_of_find?_eq_some hfind
          obtain ⟨root, γ, B, hstate⟩ := hok.main.records.state t' st hst
          have hroot : root = g := (B.valid B.root).eq_of_id (hvalid g hg) (hstate.genesis.symm.trans hgenesis)
          refine ⟨rfl, .named g hg (find?_some hfind) (hroot ▸ B.root) ⟨st, hst, hgenesis⟩ ?_⟩
          unfold Node.namesBoth at hnames
          rw [hfind] at hnames
          dsimp only [Option.bind_some] at hnames
          cases hnamed : initialPeersOf g with
          | none => rw [hnamed] at hnames; cases hnames
          | some named =>
            rw [hnamed] at hnames
            exact ⟨named, rfl, of_decide_eq_true hnames⟩

/-- A call of `receive_sync_outcome`. -/
structure SyncCall where
  source : PeerId
  topicId : TopicId
  ops : List Op
  now : ℕ
  peers : SyncPeers := fun _ _ => []

/-- The call as an event of the node. -/
def SyncCall.event (c : SyncCall) : NodeEvent := ⟨.receiveSync c.source c.topicId c.ops c.now, c.peers⟩

/-- **No activation without membership.** While a topic has no state the active records hold nothing of it,
and it gets its first state in a call whose genesis names this node and the source, or from a namespace of the
source whose state lists both. -/
theorem activation_proven (peer : PeerId) (limits : StagingLimits) (evs : List NodeEvent) (t : TopicId)
    (hnone : ((Node.fresh peer limits).run E evs).storage.inner.topicState t = none) (calls : List SyncCall) :
    (((Node.fresh peer limits).run E (evs ++ calls.map SyncCall.event)).storage.inner.topicState t = none →
      NoRecord ((Node.fresh peer limits).run E (evs ++ calls.map SyncCall.event)).storage.inner.toRecords t) ∧
    ((((Node.fresh peer limits).run E (evs ++ calls.map SyncCall.event)).storage.inner.topicState t).isSome =
      true → ∃ before c after, calls = before ++ c :: after ∧ c.topicId = t ∧
        ((Node.fresh peer limits).run E (evs ++ before.map SyncCall.event)).storage.inner.topicState t = none ∧
        FirstState E ((Node.fresh peer limits).run E (evs ++ before.map SyncCall.event)) c.source t c.ops
          ((Node.fresh peer limits).run E (evs ++ (before ++ [c]).map SyncCall.event))) := by
  refine ⟨fun h => (nodeOK_run peer limits _).main.records.noRecord h, ?_⟩
  -- the first call after which the topic has a state
  induction calls using List.reverseRecOn with
  | nil =>
    intro h
    rw [map_nil, append_nil, hnone] at h
    cases h
  | append_singleton calls c ih =>
    intro h
    cases hbefore : ((Node.fresh peer limits).run E (evs ++ calls.map SyncCall.event)).storage.inner.topicState
      t with
    | some st =>
      obtain ⟨before, c', after, heq, hrest⟩ := ih (by rw [hbefore]; rfl)
      exact ⟨before, c', after ++ [c], by simp [heq], hrest⟩
    | none =>
      have hstep : (Node.fresh peer limits).run E (evs ++ (calls ++ [c]).map SyncCall.event) =
          (((Node.fresh peer limits).run E (evs ++ calls.map SyncCall.event)).receiveSyncOutcome E c.peers
            c.source c.topicId c.ops c.now).2 := by
        rw [map_append, ← append_assoc, Node.run_append]
        rfl
      obtain ⟨st, hst⟩ := Option.isSome_iff_exists.1 h
      rw [hstep] at hst
      obtain ⟨htopic, hfirst⟩ := Node.receiveSync_first (nodeOK_run peer limits _) hbefore hst
      exact ⟨calls, c, [], rfl, htopic, hbefore, by rw [hstep]; exact hfirst⟩

/-- Peer 2 founds a topic alone. -/
def inviteGenesis : Op :=
  tableOp 1 2 1 none [] 0 (.genesis ⟨"note", ExtTreeSet.ofList [IdType.ofNat 2] compare, ⟨∅, 8⟩⟩)

/-- The author of the genesis lets peer 3 in. -/
def inviteAdd : Op := tableOp 2 2 2 (some 1) [1] 1 (.control (.addPeer (IdType.ofNat 3)))

/-- The environment that knows both ops. -/
def inviteEnv : Env := Env.ofTable ([inviteGenesis, inviteAdd].map (·.signed))

/-- Peer 2 sends the genesis, then the control. -/
def inviteCalls : List SyncCall :=
  [{ source := IdType.ofNat 2, topicId := IdType.ofNat 1, ops := [inviteGenesis], now := 0 },
    { source := IdType.ofNat 2, topicId := IdType.ofNat 1, ops := [inviteAdd], now := 1 }]

theorem activation_proven_invite :
    ∃ before c after, inviteCalls = before ++ c :: after ∧ c.topicId = IdType.ofNat 1 ∧
    ((Node.fresh (IdType.ofNat 3) .memory).run inviteEnv
      ([] ++ before.map SyncCall.event)).storage.inner.topicState (IdType.ofNat 1) = none ∧
    FirstState inviteEnv ((Node.fresh (IdType.ofNat 3) .memory).run inviteEnv ([] ++ before.map SyncCall.event))
      c.source (IdType.ofNat 1) c.ops
        ((Node.fresh (IdType.ofNat 3) .memory).run inviteEnv ([] ++ (before ++ [c]).map SyncCall.event)) := by
  have hnone : ((Node.fresh (IdType.ofNat 3) .memory).run inviteEnv []).storage.inner.topicState
    (IdType.ofNat 1) = none := rfl
  refine (activation_proven (IdType.ofNat 3) .memory [] (IdType.ofNat 1) hnone inviteCalls).2 ?_
  decide +kernel

end Irokle
