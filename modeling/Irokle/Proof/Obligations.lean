import Irokle.Proof.Storage

/-!
# Replication obligations are never lost

A `Demand` is one position or one repair id a peer is owed. Coalescing obligations, skipping those an
ack already covers and settling them by acks all keep a demand, until the stored evidence of the peer
meets it.

* `settledObligation_has` — settling drops a demand only when the ack meets it;
* `AckApplied.keeps`, `Merges.effects` — acks and new obligations keep what is owed;
* `EvidenceWrite` — everything a write can do to the evidence;
* `obligations_kept` — what was once recorded stays owed or met over every run.
-/

namespace Irokle

open Std Outcome List ExtTreeMap

/-- One thing a peer is owed: an actor position, or an op by id. -/
inductive Demand
  | position (a : ActorId) (s : ℕ)
  | repair (id : OpId)

/-- The kind of obligation a demand is stored under. -/
def Demand.kind : Demand → ObligationKind
  | .position _ _ => .clock
  | .repair _ => .repair

/-- The target demands this much. -/
def ObligationTarget.Has : ObligationTarget → Demand → Prop
  | .clock clk, .position a s => 1 ≤ s ∧ s ≤ clk.get a
  | .repair ids, .repair id => id ∈ ids
  | _, _ => False

/-- The ack proves that its peer has what is demanded of topic `t`. -/
def PeerAck.Meets (ack : PeerAck) (metas : BTreeMap OpId OpMeta) (t : TopicId) : Demand → Prop
  | .position a s => s ≤ ack.clock.get a
  | .repair id => id ∈ ack.heads ∨ ∃ m, metas[id]? = some m ∧ m.topicId = t ∧ m.actorSeq ≤ ack.clock.get m.actorId

variable {d : Demand} {o merged rest : SyncObligation} {ack : PeerAck} {metas : BTreeMap OpId OpMeta}
  {t t' : TopicId} {peer peer' : PeerId} {g : OpId} {v v' : Evidence} {kind kind' : ObligationKind}
  {existing : Option SyncObligation} {target : ObligationTarget}

/-- A target has demands of its own kind only. -/
theorem ObligationTarget.Has.cases (h : target.Has d) :
    (∃ clk a s, target = .clock clk ∧ d = .position a s ∧ 1 ≤ s ∧ s ≤ clk.get a) ∨
      ∃ ids id, target = .repair ids ∧ d = .repair id ∧ id ∈ ids := by
  cases target with
  | clock clk =>
    cases d with
    | position a s => exact Or.inl ⟨clk, a, s, rfl, rfl, h⟩
    | repair id => exact h.elim
  | repair ids =>
    cases d with
    | position a s => exact h.elim
    | repair id => exact Or.inr ⟨ids, id, rfl, rfl, h⟩

theorem ObligationTarget.Has.kind_eq (h : o.target.Has d) : ObligationKind.of o = d.kind := by
  unfold ObligationKind.of
  rcases h.cases with ⟨clk, a, s, ht, rfl, -⟩ | ⟨ids, id, ht, rfl, -⟩ <;> rw [ht] <;> rfl

theorem ObligationTarget.Has.not_empty (h : o.target.Has d) : o.isEmpty = false := by
  unfold SyncObligation.isEmpty
  rcases h.cases with ⟨clk, a, s, ht, -, h1, hs⟩ | ⟨ids, id, ht, -, h⟩
  · rw [ht, Bool.eq_false_iff]
    intro hempty
    rw [ExtTreeMap.isEmpty_iff.1 hempty] at hs
    simp [ActorClock.get] at hs
    omega
  · rw [ht]
    exact BTreeSet.isEmpty_eq_false_of_mem h

theorem ObligationTarget.has_merge {clk clk' : ActorClock} :
    (ObligationTarget.clock (clk.merge clk')).Has d ↔ (ObligationTarget.clock clk).Has d ∨
    (ObligationTarget.clock clk').Has d := by
  cases d with
  | position a s => exact (and_congr_right fun h => ActorClock.le_get_merge h).trans and_or_left
  | repair id => simp [Has]

theorem ObligationTarget.has_union {ids ids' : BTreeSet OpId} :
    (ObligationTarget.repair (ids ∪ ids')).Has d ↔ (ObligationTarget.repair ids).Has d ∨
    (ObligationTarget.repair ids').Has d := by
  cases d <;> simp [Has]

/-! ## Merging and settling one obligation -/

/-- What a merge of two obligations returns. -/
theorem mergedObligation_eq_ok (h : mergedObligation existing o = .ok merged) :
    existing = none ∧ merged = o ∨ ∃ e, existing = some e ∧
      ((∃ stored clk, e.target = .clock stored ∧ o.target = .clock clk ∧
        merged = { e with target := .clock (stored.merge clk) }) ∨ ∃ stored ids, e.target = .repair stored ∧
          o.target = .repair ids ∧ merged = { e with target := .repair (stored ∪ ids) }) := by
  unfold mergedObligation at h
  dsimp only at h
  cases existing with
  | none =>
    split at h
    · cases h
    · cases h
      exact Or.inl ⟨rfl, rfl⟩
    · rename_i heq
      cases heq
  | some e =>
    split at h
    · cases h
    · rename_i heq
      cases heq
    · rename_i heq
      cases heq
      split at h
      · rename_i stored clk hstored hclk
        cases h
        exact Or.inr ⟨e, rfl, Or.inl ⟨stored, clk, hstored, hclk, rfl⟩⟩
      · rename_i stored ids hstored hids
        split at h
        · cases h
        · cases h
          exact Or.inr ⟨e, rfl, Or.inr ⟨stored, ids, hstored, hids, rfl⟩⟩
      · cases h

/-- Merging keeps what either obligation demands, under the key they share. -/
theorem mergedObligation_has (h : mergedObligation existing o = .ok merged)
    (hkey : ∀ e, existing = some e → e.topicId = o.topicId ∧ e.peerId = o.peerId) :
    (∀ d, o.target.Has d ∨ (∃ e, existing = some e ∧ e.target.Has d) → merged.target.Has d) ∧
      merged.topicId = o.topicId ∧ merged.peerId = o.peerId ∧ ObligationKind.of merged = ObligationKind.of o := by
  rcases mergedObligation_eq_ok h with ⟨rfl, rfl⟩ | ⟨e, rfl, hmerged⟩
  · refine ⟨fun d hd => hd.resolve_right ?_, rfl, rfl, rfl⟩
    rintro ⟨e, he, -⟩
    cases he
  · obtain ⟨ht, hp⟩ := hkey e rfl
    rcases hmerged with ⟨stored, clk, hstored, hclk, rfl⟩ | ⟨stored, ids, hstored, hids, rfl⟩
    · refine ⟨fun d hd => ?_, ht, hp, by simp [ObligationKind.of, hclk]⟩
      simpa [hclk, hstored, ObligationTarget.has_merge, or_comm] using hd
    · refine ⟨fun d hd => ?_, ht, hp, by simp [ObligationKind.of, hids]⟩
      simpa [hids, hstored, ObligationTarget.has_union, or_comm] using hd

/-- The positions an ack leaves of a clock target. -/
theorem le_get_settled {clk ackClock : ActorClock} {a : ActorId} {s : ℕ} (hs : s ≤ clk.get a)
    (hack : ackClock.get a < s) :
    s ≤ ActorClock.get (clk.toList.foldl
      (fun rest e => if ackClock.get e.1 < e.2 then rest.observe e.1 e.2 else rest) (∅ : ActorClock)) a := by
  have hclk : clk[a]? = some (clk.get a) := by
    cases h : clk[a]? with
    | none =>
      simp [ActorClock.get, h] at hs
      omega
    | some n => simp [ActorClock.get, h]
  have hmem : (a, clk.get a) ∈ clk.toList := mem_toList_iff_getElem?_eq_some.2 hclk
  -- an entry that is observed once stays
  have key : ∀ (l : List (ActorId × ℕ)) (rest : ActorClock), (s ≤ rest.get a ∨ (a, clk.get a) ∈ l) →
      s ≤ ActorClock.get (l.foldl (fun rest e => if ackClock.get e.1 < e.2 then rest.observe e.1 e.2 else rest)
        rest) a := by
    intro l
    induction l with
    | nil => exact fun rest h => h.resolve_right (by simp)
    | cons e l ih =>
      intro rest h
      refine ih _ ?_
      rcases h with h | h
      · left
        dsimp only
        split
        · exact ActorClock.le_get_observe.2 (Or.inl h)
        · exact h
      · rcases mem_cons.1 h with rfl | h
        · left
          dsimp only
          rw [if_pos (by omega)]
          exact ActorClock.le_get_observe.2 (Or.inr ⟨rfl, hs⟩)
        · exact Or.inr h
  exact key _ _ (Or.inr hmem)

/-- **Settling drops a demand only when the ack meets it.** -/
theorem settledObligation_has (ack : PeerAck) (metas : BTreeMap OpId OpMeta) (h : o.target.Has d) :
    (∃ rest, settledObligation o ack metas = some rest ∧ rest.target.Has d) ∨ ack.Meets metas o.topicId d := by
  by_cases hmeets : ack.Meets metas o.topicId d
  · exact Or.inr hmeets
  left
  unfold settledObligation
  dsimp only
  have kept : ∀ rest : SyncObligation, rest.target.Has d → ∃ rest', (if rest.isEmpty then none else some rest) =
    some rest' ∧ rest'.target.Has d :=
    fun rest hrest => ⟨rest, if_neg (by simp [hrest.not_empty]), hrest⟩
  rcases h.cases with ⟨clk, a, s, ht, rfl, h1, hs⟩ | ⟨ids, id, ht, rfl, hid⟩
  · rw [ht]
    exact kept _ ⟨h1, le_get_settled hs (Nat.lt_of_not_le hmeets)⟩
  · rw [ht]
    refine kept _ (BTreeSet.mem_filter.2 ⟨hid, ?_⟩)
    simp only [PeerAck.Meets, not_or, not_exists, not_and] at hmeets
    cases hm : metas[id]? with
    | none => simp [hmeets.1]
    | some m => simpa [hmeets.1, imp_iff_not_or] using hmeets.2 m hm

theorem settledObligation_eq_some (h : settledObligation o ack metas = some rest) :
    rest.isEmpty = false ∧ rest.topicId = o.topicId ∧ rest.peerId = o.peerId ∧
    ObligationKind.of rest = ObligationKind.of o := by
  unfold settledObligation at h
  rw [Option.ite_none_left_eq_some] at h
  obtain ⟨hne, h⟩ := h
  cases h
  refine ⟨by simpa using hne, rfl, rfl, ?_⟩
  unfold ObligationKind.of
  cases o.target <;> rfl

/-! ## The stored evidence -/

/-- The stored ack of a peer on branch `g` meets the demand. -/
def Evidence.Met (v : Evidence) (metas : BTreeMap OpId OpMeta) (peer : PeerId) (t : TopicId) (g : OpId)
    (d : Demand) : Prop :=
  ∃ ack, v.peerAcks[(peer, t)]? = some ack ∧ ack.genesis = some g ∧ ack.Meets metas t d

/-- The demand is a position that the stored ack of the peer on branch `g` covers. -/
def Evidence.Covers (v : Evidence) (peer : PeerId) (t : TopicId) (g : OpId) (d : Demand) : Prop :=
  d.kind = .clock ∧ ∀ metas, v.Met metas peer t g d

/-- The stored obligation of a peer holds the demand. -/
def Evidence.Holds (v : Evidence) (peer : PeerId) (t : TopicId) (d : Demand) : Prop :=
  ∃ o, v.obligation t peer d.kind = some o ∧ o.target.Has d

/-- The records of a peer are its obligations. -/
theorem Evidence.mem_records :
    (kind, o) ∈ (v.obligations[(t, peer)]?.getD ∅).toList ↔ v.obligation t peer kind = some o := by
  rw [mem_toList_iff_getElem?_eq_some, Evidence.obligation]
  cases v.obligations[(t, peer)]? <;> simp

/-! ## Settling by an ack -/

/-- Settling one kind touches that kind of the peer only. -/
theorem Evidence.obligation_settleKind (H : v.Keyed) (ho : v.obligation ack.topicId ack.peerId kind = some o) :
    (Evidence.settleKind ack metas v (kind, o)).obligation t peer kind' =
      if t = ack.topicId ∧ peer = ack.peerId ∧ kind' = kind then settledObligation o ack metas
        else v.obligation t peer kind' := by
  obtain ⟨ht, hp, hk⟩ := H.obligations _ _ _ _ ho
  unfold Evidence.settleKind
  cases hs : settledObligation o ack metas with
  | some rest =>
    obtain ⟨hne, ht', hp', hk'⟩ := settledObligation_eq_some hs
    dsimp only
    rw [Evidence.obligation_putObligationLocked hne, ht', hp', hk', ht, hp, hk]
  | none =>
    dsimp only
    have hentry : ∃ records, v.obligations[(ack.topicId, ack.peerId)]? = some records := by
      unfold Evidence.obligation at ho
      cases h : v.obligations[(ack.topicId, ack.peerId)]? with
      | none => simp [h] at ho
      | some records => exact ⟨records, rfl⟩
    obtain ⟨records, hrecords⟩ := hentry
    rw [hrecords]
    unfold Evidence.obligation
    simp only [ExtTreeMap.getElem?_insert, Std.compare_eq_iff_eq, Prod.mk.injEq]
    by_cases hkey : ack.topicId = t ∧ ack.peerId = peer
    · obtain ⟨rfl, rfl⟩ := hkey
      simp only [and_self, if_true, Option.bind_some, true_and, hrecords, getElem?_erase, Std.compare_eq_iff_eq]
      by_cases hk' : kind = kind'
      · simp [hk']
      · rw [if_neg hk', if_neg (Ne.symm hk')]
    · rw [if_neg hkey, if_neg (fun h => hkey ⟨h.1.symm, h.2.1.symm⟩)]

theorem Evidence.peerAcks_settleKind {e : ObligationKind × SyncObligation} :
    (Evidence.settleKind ack metas v e).peerAcks = v.peerAcks := by
  unfold Evidence.settleKind
  split
  · exact Evidence.peerAcks_putObligationLocked
  · dsimp only
    split <;> rfl

theorem Evidence.Keyed.settleKind (H : v.Keyed) (ho : v.obligation ack.topicId ack.peerId kind = some o) :
    (Evidence.settleKind ack metas v (kind, o)).Keyed := by
  refine ⟨by rw [Evidence.peerAcks_settleKind]; exact H.acks, fun t peer kind' o' h => ?_⟩
  rw [Evidence.obligation_settleKind H ho] at h
  split at h
  · rename_i hkey
    obtain ⟨rfl, rfl, rfl⟩ := hkey
    obtain ⟨-, ht, hp, hk⟩ := settledObligation_eq_some h
    obtain ⟨ht', hp', hk'⟩ := H.obligations _ _ _ _ ho
    exact ⟨ht.trans ht', hp.trans hp', hk.trans hk'⟩
  · exact H.obligations t peer kind' o' h

/-- Settling every kind of the peer. -/
theorem Evidence.settleAll (metas : BTreeMap OpId OpMeta) (l : List (ObligationKind × SyncObligation))
    (H : v.Keyed) (hl : (l.map (·.1)).Nodup) (ho : ∀ e ∈ l, v.obligation ack.topicId ack.peerId e.1 = some e.2) :
    (l.foldl (Evidence.settleKind ack metas) v).Keyed ∧
      (l.foldl (Evidence.settleKind ack metas) v).peerAcks = v.peerAcks ∧
      (∀ e ∈ l, (l.foldl (Evidence.settleKind ack metas) v).obligation ack.topicId ack.peerId e.1 =
        settledObligation e.2 ack metas) ∧
      ∀ t peer kind, (t = ack.topicId → peer = ack.peerId → ∀ e ∈ l, e.1 ≠ kind) →
        (l.foldl (Evidence.settleKind ack metas) v).obligation t peer kind = v.obligation t peer kind := by
  induction l generalizing v with
  | nil => exact ⟨H, rfl, by simp, fun _ _ _ _ => rfl⟩
  | cons e l ih =>
    obtain ⟨kind, o⟩ := e
    rw [map_cons, nodup_cons] at hl
    have hfirst := ho (kind, o) (by simp)
    have hne : ∀ e ∈ l, e.1 ≠ kind := fun e he h => hl.1 (List.mem_map.2 ⟨e, he, h⟩)
    have hread : ∀ t peer kind', (Evidence.settleKind ack metas v (kind, o)).obligation t peer kind' = _ :=
      fun t peer kind' => Evidence.obligation_settleKind H hfirst
    obtain ⟨hK, hacks, hin, hout⟩ := ih (H.settleKind hfirst) hl.2 fun e he => by
      rw [hread, if_neg (fun h => hne e he h.2.2)]
      exact ho e (by simp [he])
    rw [foldl_cons]
    refine ⟨hK, hacks.trans Evidence.peerAcks_settleKind, fun e he => ?_, fun t peer kind' h => ?_⟩
    · rcases mem_cons.1 he with rfl | he
      · rw [hout _ _ _ fun _ _ e he => hne e he, hread, if_pos ⟨rfl, rfl, rfl⟩]
      · exact hin e he
    · rw [hout t peer kind' fun ht hp e he => h ht hp e (by simp [he]), hread, if_neg]
      rintro ⟨ht, hp, rfl⟩
      exact h ht hp (kind', o) (by simp) rfl

/-- The ack stored once `ack` arrives: on its branch, and with every position it or the stored ack of that
branch has. -/
theorem Evidence.effectiveAck_spec (H : v.Keyed) (hg : ack.genesis = some g) :
    (v.effectiveAck ack).genesis = some g ∧
      ∀ old, v.peerAcks[(ack.peerId, ack.topicId)]? = some old → old.genesis = some g →
        ∀ a s, 1 ≤ s → s ≤ old.clock.get a → s ≤ (v.effectiveAck ack).clock.get a := by
  unfold Evidence.effectiveAck
  cases hold : v.peerAcks[(ack.peerId, ack.topicId)]? with
  | none => exact ⟨hg, fun old h => by cases h⟩
  | some old =>
    obtain ⟨hp, ht⟩ := H.acks _ _ old hold
    dsimp only
    split
    · rename_i hdom
      unfold storedAckDominates sameIncarnation at hdom
      rw [Bool.and_eq_true, decide_eq_true_eq] at hdom
      refine ⟨hdom.1.2.2.2.trans hg, fun old' h _ a s _ hs => ?_⟩
      cases h
      exact hs
    · unfold mergedPeerAck
      split
      · refine ⟨hg, fun old' h _ a s h1 hs => ?_⟩
        cases h
        exact (ActorClock.le_get_merge h1).2 (Or.inr hs)
      · rename_i hsame
        refine ⟨hg, fun old' h hg' => ?_⟩
        cases h
        refine absurd ?_ hsame
        unfold sameIncarnation
        exact decide_eq_true ⟨hp, ht, by rw [hg']; rfl, hg'.trans hg.symm⟩

theorem Evidence.effectiveAck_key (H : v.Keyed) (ack : PeerAck) :
    (v.effectiveAck ack).peerId = ack.peerId ∧ (v.effectiveAck ack).topicId = ack.topicId := by
  unfold Evidence.effectiveAck
  cases hold : v.peerAcks[(ack.peerId, ack.topicId)]? with
  | none => exact ⟨rfl, rfl⟩
  | some old =>
    dsimp only
    split
    · exact H.acks _ _ old hold
    · unfold mergedPeerAck
      split <;> exact ⟨rfl, rfl⟩

/-- What applying an ack does to the evidence. -/
structure AckApplied (v : Evidence) (r : Records) (ack : PeerAck) (v' : Evidence) : Prop where
  keyed : v'.Keyed
  acks : ∀ (peer : PeerId) (t : TopicId), v'.peerAcks[(peer, t)]? =
    if peer = ack.peerId ∧ t = ack.topicId then some (v.effectiveAck ack) else v.peerAcks[(peer, t)]?
  certified : ∀ st, r.topics[ack.topicId]? = some st → ack.genesis = some st.genesis
  obligations : ∀ t peer kind, v'.obligation t peer kind =
    if peer = ack.peerId ∧ t = ack.topicId ∧ (r.topics[ack.topicId]?).isSome then
      (v.obligation t peer kind).bind fun o => settledObligation o (v.effectiveAck ack) r.metas
    else v.obligation t peer kind

theorem applyAckLocked_post {reserve : ℕ → Result Unit} {r : Records} (H : v.Keyed) :
    Post (v.applyAckLocked reserve r ack) (fun res => AckApplied v r ack res.2) fun _ => True := by
  unfold Evidence.applyAckLocked
  refine (Post.intro (fun c hc => hc) fun _ _ => trivial).bind fun commit hcommit => Post.skip fun _ => Post.skip
    fun _ => Post.ok ?_
  obtain ⟨hpeer, htopic⟩ := Evidence.effectiveAck_key H ack
  have hcert : ∀ st, r.topics[ack.topicId]? = some st → ack.genesis = some st.genesis ∧ commit = .certify := by
    intro st hst
    rw [hst] at hcommit
    unfold ackCommit at hcommit
    dsimp only at hcommit
    split at hcommit
    · cases hcommit
    · rename_i hg
      split at hcommit
      · cases hcommit
      · cases hcommit
        exact ⟨not_not.1 hg, rfl⟩
  have hretain : r.topics[ack.topicId]? = none → commit = .retain := by
    intro h
    rw [h] at hcommit
    cases hcommit
    rfl
  set eff := v.effectiveAck ack with heff
  set records := if commit = .retain then []
    else (v.obligations[(eff.topicId, eff.peerId)]?.getD ∅).toList with hrecords
  set v₁ : Evidence := { v with peerAcks := v.peerAcks.insert (ack.peerId, ack.topicId) eff } with hv₁
  have hK₁ : v₁.Keyed := by
    refine ⟨fun peer t old h => ?_, H.obligations⟩
    rcases BTreeMap.of_getElem?_insert h with ⟨hkey, rfl⟩ | ⟨-, h⟩
    · cases hkey
      exact ⟨hpeer, htopic⟩
    · exact H.acks peer t old h
  have hob₁ : ∀ t peer kind, v₁.obligation t peer kind = v.obligation t peer kind := fun _ _ _ => rfl
  have hmem : ∀ e ∈ records, v₁.obligation eff.topicId eff.peerId e.1 = some e.2 := by
    intro e he
    rw [hrecords] at he
    split at he
    · cases he
    · exact Evidence.mem_records.1 he
  have hnodup : (records.map (·.1)).Nodup := by
    rw [hrecords]
    split
    · exact nodup_nil
    · rw [map_fst_toList_eq_keys]
      exact distinct_keys.imp fun h => by simpa using h
  obtain ⟨hK₂, hacks₂, hin, hout⟩ := Evidence.settleAll r.metas records hK₁ hnodup hmem
  set v₂ := records.foldl (Evidence.settleKind eff r.metas) v₁ with hv₂
  -- dropping an empty entry changes no reading
  have hlast : ∀ t peer kind, ({ v₂ with obligations :=
      if v₂.obligations[(eff.topicId, eff.peerId)]? = some ∅ then v₂.obligations.erase (eff.topicId, eff.peerId)
      else v₂.obligations } : Evidence).obligation t peer kind = v₂.obligation t peer kind := by
    intro t peer kind
    unfold Evidence.obligation
    dsimp only
    split
    · rename_i hempty
      rw [getElem?_erase]
      split
      · rename_i hkey
        have hkey' : (eff.topicId, eff.peerId) = (t, peer) := by simpa using hkey
        rw [← hkey', hempty]
        simp
      · rfl
    · rfl
  refine ⟨⟨fun peer t old h => hK₂.acks peer t old h, fun t peer kind o h => hK₂.obligations t peer kind o
    (hlast t peer kind ▸ h)⟩, fun peer t => ?_, fun st hst => (hcert st hst).1, fun t peer kind => ?_⟩
  · show v₂.peerAcks[(peer, t)]? = _
    rw [hacks₂, hv₁]
    simp only [ExtTreeMap.getElem?_insert, Std.compare_eq_iff_eq, Prod.mk.injEq]
    exact if_congr ⟨fun h => ⟨h.1.symm, h.2.symm⟩, fun h => ⟨h.1.symm, h.2.symm⟩⟩ rfl rfl
  · rw [hlast]
    split
    · rename_i hkey
      obtain ⟨rfl, rfl, hsome⟩ := hkey
      obtain ⟨st, hst⟩ := Option.isSome_iff_exists.1 hsome
      have hrec : records = (v.obligations[(eff.topicId, eff.peerId)]?.getD ∅).toList := by
        rw [hrecords, if_neg]
        rw [(hcert st hst).2]
        exact fun h => by cases h
      cases hob : v.obligation ack.topicId ack.peerId kind with
      | some o =>
        have := hin (kind, o) (by rwa [hrec, Evidence.mem_records, hpeer, htopic])
        rw [htopic, hpeer] at this
        rw [this]
        rfl
      | none =>
        rw [hout, hob₁, hob]
        · rfl
        · intro _ _ e he hk
          have := hmem e he
          rw [hob₁, hk, htopic, hpeer, hob] at this
          cases this
    · rename_i hkey
      rw [hout, hob₁]
      intro ht hp e he _
      refine hkey ⟨hp.trans hpeer, ht.trans htopic, ?_⟩
      cases hst : r.topics[ack.topicId]? with
      | some st => rfl
      | none =>
        rw [hrecords, if_pos (hretain hst)] at he
        cases he

/-- **An ack keeps every demand**: it stays stored, or the ack now stored for the branch meets it. -/
theorem AckApplied.keeps {r : Records} {st : TopicState} (A : AckApplied v r ack v') (H : v.Keyed)
    (hst : r.topics[t]? = some st) (hheld : v.Holds peer t d) :
    v'.Holds peer t d ∨ v'.Met r.metas peer t st.genesis d := by
  obtain ⟨o, ho, hd⟩ := hheld
  have hread := A.obligations t peer d.kind
  by_cases hkey : peer = ack.peerId ∧ t = ack.topicId
  · obtain ⟨rfl, rfl⟩ := hkey
    rw [if_pos ⟨rfl, rfl, by rw [hst]; rfl⟩, ho] at hread
    rcases settledObligation_has (v.effectiveAck ack) r.metas hd with ⟨rest, hrest, hhas⟩ | hmeets
    · exact Or.inl ⟨rest, hread.trans hrest, hhas⟩
    · right
      have hg := A.certified st hst
      have hgen := (Evidence.effectiveAck_spec H hg).1
      rw [(H.obligations _ _ _ _ ho).1] at hmeets
      exact ⟨_, by rw [A.acks, if_pos ⟨rfl, rfl⟩], hgen, hmeets⟩
  · rw [if_neg fun h => hkey ⟨h.1, h.2.1⟩] at hread
    exact Or.inl ⟨o, hread.trans ho, hd⟩

/-- A position met on a branch stays met. -/
theorem AckApplied.met {r : Records} {st : TopicState} {a : ActorId} {s : ℕ} (A : AckApplied v r ack v')
    (H : v.Keyed) (hst : r.topics[t]? = some st) (hs : 1 ≤ s)
    (hmet : v.Met r.metas peer t st.genesis (.position a s)) :
    v'.Met r.metas peer t st.genesis (.position a s) := by
  obtain ⟨old, hold, hg, hmeets⟩ := hmet
  by_cases hkey : peer = ack.peerId ∧ t = ack.topicId
  · obtain ⟨rfl, rfl⟩ := hkey
    obtain ⟨hgen, hkeep⟩ := Evidence.effectiveAck_spec H (A.certified st hst)
    exact ⟨_, by rw [A.acks, if_pos ⟨rfl, rfl⟩], hgen, hkeep old hold hg a s hs hmeets⟩
  · exact ⟨old, by rw [A.acks, if_neg hkey]; exact hold, hg, hmeets⟩

/-! ## New obligations -/

/-- What recording the obligations `os` of topic `t` on branch `genesis` does to the evidence: what was
held stays, and each new demand is held unless the stored ack of the branch already meets it. -/
structure Merges (v : Evidence) (t : TopicId) (genesis : Option OpId) (os : List SyncObligation)
    (v' : Evidence) : Prop where
  keyed : v'.Keyed
  acks : v'.peerAcks = v.peerAcks
  held : ∀ peer t d, v.Holds peer t d → v'.Holds peer t d
  added : ∀ o ∈ os, o.topicId = t ∧ ∀ d, o.target.Has d →
    v'.Holds o.peerId t d ∨ ∃ g, genesis = some g ∧ v'.Covers o.peerId t g d

theorem Evidence.holds_put (h : o.topicId = t ∧ o.peerId = peer ∧ o.target.Has d ∨
    v.Holds peer t d ∧ ¬(o.topicId = t ∧ o.peerId = peer ∧ ObligationKind.of o = d.kind)) :
    (v.putObligationLocked o).Holds peer t d := by
  rcases h with ⟨rfl, rfl, hd⟩ | ⟨⟨old, hold, hd⟩, hkey⟩
  · exact ⟨o, by rw [Evidence.obligation_putObligationLocked hd.not_empty, if_pos ⟨rfl, rfl, hd.kind_eq.symm⟩],
      hd⟩
  · cases hne : o.isEmpty with
    | true =>
      unfold Evidence.putObligationLocked
      rw [if_pos hne]
      exact ⟨old, hold, hd⟩
    | false =>
      refine ⟨old, ?_, hd⟩
      rw [Evidence.obligation_putObligationLocked hne, if_neg fun h => hkey ⟨h.1.symm, h.2.1.symm, h.2.2.symm⟩]
      exact hold

/-- Writing obligations under distinct keys: each is held afterwards, and so is what none of them replaces. -/
theorem Evidence.holds_putAll (l : List SyncObligation)
    (hl : l.Pairwise fun o o' =>
      ¬(o.topicId = o'.topicId ∧ o.peerId = o'.peerId ∧ ObligationKind.of o = ObligationKind.of o'))
    (h : (∃ o ∈ l, o.topicId = t ∧ o.peerId = peer ∧ o.target.Has d) ∨
      v.Holds peer t d ∧ ∀ o ∈ l, ¬(o.topicId = t ∧ o.peerId = peer ∧ ObligationKind.of o = d.kind)) :
    (l.foldl Evidence.putObligationLocked v).Holds peer t d := by
  induction l generalizing v with
  | nil => exact (h.resolve_left (by simp)).1
  | cons o l ih =>
    rw [pairwise_cons] at hl
    refine ih hl.2 ?_
    rcases h with ⟨o', ho', ht, hp, hd⟩ | ⟨hold, hkey⟩
    · rcases mem_cons.1 ho' with rfl | ho'
      · right
        refine ⟨Evidence.holds_put (Or.inl ⟨ht, hp, hd⟩), fun o₂ ho₂ hk => hl.1 o₂ ho₂ ?_⟩
        exact ⟨ht.trans hk.1.symm, hp.trans hk.2.1.symm, hd.kind_eq.trans hk.2.2.symm⟩
      · exact Or.inl ⟨o', ho', ht, hp, hd⟩
    · exact Or.inr ⟨Evidence.holds_put (Or.inr ⟨hold, hkey o (by simp)⟩), fun o₂ ho₂ => hkey o₂ (by simp [ho₂])⟩

/-- The obligations gathered for a batch: each under its key, with what is stored there. -/
structure Gathered (v : Evidence) (t : TopicId)
    (m : BTreeMap (PeerId × ObligationKind) SyncObligation) : Prop where
  keyed : ∀ (k : PeerId × ObligationKind) o, m[k]? = some o → o.topicId = t ∧ o.peerId = k.1 ∧
    ObligationKind.of o = k.2
  stored : ∀ (k : PeerId × ObligationKind) o old d, m[k]? = some o → v.obligation t k.1 k.2 = some old →
    old.target.Has d → o.target.Has d

theorem ackCovers_meets {stored : Option PeerAck} {genesis : Option OpId} (h : ackCovers stored genesis o = true)
    (hd : o.target.Has d) : ∃ ack g, stored = some ack ∧ genesis = some g ∧ ack.genesis = some g ∧
      d.kind = .clock ∧ ∀ metas, ack.Meets metas o.topicId d := by
  unfold ackCovers at h
  split at h
  · rename_i target ack htarget
    simp only [Bool.and_eq_true, beq_iff_eq] at h
    obtain ⟨g, rfl⟩ := Option.isSome_iff_exists.1 h.1.1
    rw [htarget] at hd
    cases d with
    | repair id => exact hd.elim
    | position a s => exact ⟨ack, g, rfl, rfl, h.1.2, rfl, fun _ => hd.2.trans (ActorClock.dominates_iff.1 h.2 a)⟩
  · cases h

/-- Gathering one more obligation keeps what is stored under its key and what was gathered before. -/
theorem Gathered.insert {m : BTreeMap (PeerId × ObligationKind) SyncObligation} (G : Gathered v t m) (H : v.Keyed)
    (ht : o.topicId = t)
    (h : mergedObligation (m[(o.peerId, ObligationKind.of o)]?.or (v.obligation t o.peerId (ObligationKind.of o)))
      o = .ok merged) :
    Gathered v t (m.insert (o.peerId, ObligationKind.of o) merged) ∧ (∀ d, o.target.Has d → merged.target.Has d) ∧
      ∀ o' d, m[(o.peerId, ObligationKind.of o)]? = some o' → o'.target.Has d → merged.target.Has d := by
  obtain ⟨hall, hmt, hmp, hmk⟩ := mergedObligation_has h fun e he => by
    rw [Option.or_eq_some_iff] at he
    rcases he with he | ⟨-, he⟩
    · obtain ⟨h1, h2, -⟩ := G.keyed _ _ he
      exact ⟨h1.trans ht.symm, h2⟩
    · obtain ⟨h1, h2, -⟩ := H.obligations _ _ _ _ he
      exact ⟨h1.trans ht.symm, h2⟩
  have hkept : ∀ o' d, m[(o.peerId, ObligationKind.of o)]? = some o' → o'.target.Has d → merged.target.Has d := by
    intro o' d ho' hd
    exact hall d (Or.inr ⟨o', by rw [ho']; rfl, hd⟩)
  refine ⟨⟨fun k o' ho' => ?_, fun k o' old d ho' hold hd => ?_⟩, fun d hd => hall d (Or.inl hd), hkept⟩
  · rcases BTreeMap.of_getElem?_insert ho' with ⟨rfl, rfl⟩ | ⟨-, ho'⟩
    · exact ⟨hmt.trans ht, hmp, hmk⟩
    · exact G.keyed k o' ho'
  · rcases BTreeMap.of_getElem?_insert ho' with ⟨rfl, rfl⟩ | ⟨-, ho'⟩
    · cases hm : m[(o.peerId, ObligationKind.of o)]? with
      | some pending => exact hkept pending d hm (G.stored _ pending old d hm hold hd)
      | none => exact hall d (Or.inr ⟨old, by rw [hm]; exact hold, hd⟩)
    · exact G.stored k o' old d ho' hold hd

/-- The obligations `os` were gathered into `m`: nothing of `m` is lost, and each new demand is there unless
the stored ack of the branch meets it. -/
structure Gathers (v : Evidence) (t : TopicId) (genesis : Option OpId) (os : List SyncObligation)
    (m m' : BTreeMap (PeerId × ObligationKind) SyncObligation) : Prop where
  gathered : Gathered v t m'
  kept : ∀ (k : PeerId × ObligationKind) o d, m[k]? = some o → o.target.Has d → ∃ o', m'[k]? = some o' ∧
    o'.target.Has d
  added : ∀ o ∈ os, o.topicId = t ∧ ∀ d, o.target.Has d →
    (∃ o', m'[(o.peerId, d.kind)]? = some o' ∧ o'.target.Has d) ∨ ∃ g, genesis = some g ∧ v.Covers o.peerId t g d

theorem mergedEffects_gathers {genesis : Option OpId} (H : v.Keyed) (os : List SyncObligation)
    (m : BTreeMap (PeerId × ObligationKind) SyncObligation) (G : Gathered v t m) :
    Post (mergedEffects v t genesis os m) (Gathers v t genesis os m) fun _ => True := by
  induction os generalizing m with
  | nil => exact Post.ok ⟨G, fun _ o _ h hd => ⟨o, h, hd⟩, by simp⟩
  | cons o os ih =>
    unfold mergedEffects
    refine refuseIf_bind (fun _ => trivial) fun ht => ?_
    rw [not_not] at ht
    dsimp only
    split
    · rename_i hskip
      refine (ih m G).mono (fun m' h => ⟨h.gathered, h.kept, fun o' ho' => ?_⟩) fun _ h => h
      rcases mem_cons.1 ho' with rfl | ho'
      · refine ⟨ht, fun d hd => Or.inr ?_⟩
        rw [hd.not_empty, Bool.false_or] at hskip
        obtain ⟨ack, g, hack, hg, hgen, hkind, hmeets⟩ := ackCovers_meets hskip hd
        exact ⟨g, hg, hkind, fun metas => ⟨ack, hack, hgen, ht ▸ hmeets metas⟩⟩
      · exact h.added o' ho'
    · have hnext : ∀ merged, mergedObligation
        (m[(o.peerId, ObligationKind.of o)]?.or (v.obligation t o.peerId (ObligationKind.of o))) o =
          .ok merged → Post (mergedEffects v t genesis os (m.insert (o.peerId, ObligationKind.of o) merged))
          (Gathers v t genesis (o :: os) m)
            fun _ => True := fun merged hm => by
          obtain ⟨G', hnew, hold⟩ := G.insert H ht hm
          refine (ih _ G').mono (fun m' h => ⟨h.gathered, fun k o' d ho' hd => ?_, fun o' ho' => ?_⟩) fun _ h => h
          · by_cases hk : (o.peerId, ObligationKind.of o) = k
            · subst hk
              exact h.kept _ merged d (by simp) (hold o' d ho' hd)
            · refine h.kept k o' d ?_ hd
              rw [ExtTreeMap.getElem?_insert, if_neg (by simpa using hk)]
              exact ho'
          · rcases mem_cons.1 ho' with rfl | ho'
            · refine ⟨ht, fun d hd => Or.inl ?_⟩
              obtain ⟨o₂, ho₂, hd₂⟩ := h.kept (o'.peerId, ObligationKind.of o') merged d (by simp) (hnew d hd)
              exact ⟨o₂, hd.kind_eq ▸ ho₂, hd₂⟩
            · exact h.added o' ho'
      split
      · rename_i pending hpending
        refine (Post.intro (fun _ h => h) fun _ _ => trivial).bind fun merged hm => hnext merged ?_
        rw [hpending]
        exact hm
      · rename_i hnone
        refine (Post.intro (fun _ h => h) fun _ _ => trivial).bind fun merged hm => hnext merged ?_
        rw [hnone, Option.none_or, ← ht]
        exact hm

/-- **Writing the effects of a batch records each of them**, and loses nothing held before. -/
theorem Merges.effects {genesis : Option OpId} {os : List SyncObligation}
    {m : BTreeMap (PeerId × ObligationKind) SyncObligation} (H : v.Keyed)
    (h : mergedEffects v t genesis os ∅ = .ok m) :
    Merges v t genesis os ((m.toList.map (·.2)).foldl Evidence.putObligationLocked v) := by
  obtain ⟨G, -, hnew⟩ := (mergedEffects_gathers H os ∅ ⟨by simp, by simp⟩).of_ok h
  have hmem : ∀ o, o ∈ m.toList.map (·.2) ↔ m[(o.peerId, ObligationKind.of o)]? = some o := by
    intro o
    simp only [List.mem_map, Prod.exists, mem_toList_iff_getElem?_eq_some]
    constructor
    · rintro ⟨a, b, o', ho', rfl⟩
      obtain ⟨-, hp, hk⟩ := G.keyed _ _ ho'
      exact (show (o'.peerId, ObligationKind.of o') = (a, b) from Prod.ext hp hk) ▸ ho'
    · exact fun h => ⟨o.peerId, ObligationKind.of o, o, h, rfl⟩
  have hdistinct : (m.toList.map (·.2)).Pairwise fun o o' =>
      ¬(o.topicId = o'.topicId ∧ o.peerId = o'.peerId ∧ ObligationKind.of o = ObligationKind.of o') := by
    rw [pairwise_map]
    refine (distinct_keys_toList (t := m)).imp_of_mem fun {e e'} he he' hne hk => hne ?_
    obtain ⟨-, hp, hkind⟩ := G.keyed _ _ (mem_toList_iff_getElem?_eq_some.1 he)
    obtain ⟨-, hp', hkind'⟩ := G.keyed _ _ (mem_toList_iff_getElem?_eq_some.1 he')
    rw [Std.compare_eq_iff_eq]
    exact Prod.ext (hp.symm.trans (hk.2.1.trans hp')) (hkind.symm.trans (hk.2.2.trans hkind'))
  have hacks := peerAcks_foldl_putObligation (m.toList.map (·.2)) v
  refine ⟨H.putAll _, hacks, fun peer t' d hold => ?_, fun o ho => ?_⟩
  · refine Evidence.holds_putAll _ hdistinct ?_
    by_cases hkey : ∃ o ∈ m.toList.map (·.2), o.topicId = t' ∧ o.peerId = peer ∧ ObligationKind.of o = d.kind
    · obtain ⟨o, ho, rfl, rfl, hk⟩ := hkey
      obtain ⟨old, hold, hd⟩ := hold
      have ho' := (hmem o).1 ho
      obtain ⟨ht, -, -⟩ := G.keyed _ _ ho'
      refine Or.inl ⟨o, ho, rfl, rfl, G.stored _ o old d ho' ?_ hd⟩
      rw [← ht, hk]
      exact hold
    · exact Or.inr ⟨hold, fun o ho hk => hkey ⟨o, ho, hk⟩⟩
  · obtain ⟨ht, hd⟩ := hnew o ho
    refine ⟨ht, fun d hhas => ?_⟩
    rcases hd d hhas with ⟨o', ho', hhas'⟩ | ⟨g, hg, hkind, hmet⟩
    · obtain ⟨ht', hp', hk'⟩ := G.keyed _ _ ho'
      refine Or.inl (Evidence.holds_putAll _ hdistinct (Or.inl ⟨o', (hmem o').2 ?_, ht', hp', hhas'⟩))
      rw [hp', hk']
      exact ho'
    · refine Or.inr ⟨g, hg, hkind, fun metas => ?_⟩
      obtain ⟨ack, hack, h⟩ := hmet metas
      exact ⟨ack, by rw [hacks]; exact hack, h⟩

theorem Merges.single {genesis : Option OpId} (H : v.Keyed) (h : v.mergedObligationLocked o = .ok merged) :
    Merges v o.topicId genesis [o] (v.putObligationLocked merged) := by
  unfold Evidence.mergedObligationLocked at h
  obtain ⟨hall, ht, hp, hk⟩ := mergedObligation_has h fun e he => by
    obtain ⟨h1, h2, -⟩ := H.obligations _ _ _ _ he
    exact ⟨h1, h2⟩
  refine ⟨H.put merged, Evidence.peerAcks_putObligationLocked, fun peer t d hold => Evidence.holds_put ?_,
    fun o' ho' => ?_⟩
  · by_cases hkey : merged.topicId = t ∧ merged.peerId = peer ∧ ObligationKind.of merged = d.kind
    · obtain ⟨rfl, rfl, hkind⟩ := hkey
      obtain ⟨old, hold, hd⟩ := hold
      refine Or.inl ⟨rfl, rfl, hall d (Or.inr ⟨old, ?_, hd⟩)⟩
      rw [← ht, ← hp, ← hk, hkind]
      exact hold
    · exact Or.inr ⟨hold, hkey⟩
  · rw [mem_singleton] at ho'
    subst ho'
    exact ⟨rfl, fun d hd => Or.inl (Evidence.holds_put (Or.inl ⟨ht, hp, hall d (Or.inl hd)⟩))⟩

/-! ## What a write does to the evidence -/

/-- The evidence says the same about a peer in a topic. -/
structure Evidence.Same (v v' : Evidence) (peer : PeerId) (t : TopicId) : Prop where
  acks : v'.peerAcks[(peer, t)]? = v.peerAcks[(peer, t)]?
  obligations : ∀ kind, v'.obligation t peer kind = v.obligation t peer kind

theorem Evidence.Same.holds (h : v.Same v' peer t) (hv : v.Holds peer t d) : v'.Holds peer t d := by
  obtain ⟨o, ho, hd⟩ := hv
  exact ⟨o, (h.obligations _).trans ho, hd⟩

theorem Evidence.Same.met (h : v.Same v' peer t) (hv : v.Met metas peer t g d) : v'.Met metas peer t g d := by
  obtain ⟨ack, hack, hd⟩ := hv
  exact ⟨ack, h.acks.trans hack, hd⟩

theorem Evidence.Same.dropPeer (h : ¬(t' = t ∧ peer' = peer)) : v.Same (v.dropPeer t' peer') peer t := by
  refine ⟨?_, fun kind => by rw [Evidence.obligation_dropPeer, if_neg h]⟩
  unfold Evidence.dropPeer
  rw [getElem?_erase, if_neg]
  simpa [and_comm] using h

theorem Evidence.Same.dropPeers (l : List PeerId) (h : t' = t → peer ∉ l) :
    v.Same (l.foldl (fun v p => v.dropPeer t' p) v) peer t := by
  induction l generalizing v with
  | nil => exact ⟨rfl, fun _ => rfl⟩
  | cons p l ih =>
    have h₁ : v.Same (v.dropPeer t' p) peer t := .dropPeer fun hk => h hk.1 (by simp [hk.2])
    have h₂ := ih (v := v.dropPeer t' p) fun ht hp => h ht (by simp [hp])
    exact ⟨h₂.acks.trans h₁.acks, fun kind => (h₂.obligations kind).trans (h₁.obligations kind)⟩

theorem Evidence.Same.dropTopic (h : t ≠ t') : v.Same (v.dropTopic t') peer t := by
  refine ⟨?_, fun kind => by rw [Evidence.obligation_dropTopic, if_neg h]⟩
  unfold Evidence.dropTopic
  rw [getElem?_filter_key, if_pos (by simpa using h)]

/-- What a batch does to the evidence: its effects are recorded on the branch it leaves, and only peers
it removes from the members are dropped. -/
structure AdmitsEvidence (v : Evidence) (r : Records) (b : AdmittedBatch) (r' : Records)
    (v' : Evidence) : Prop where
  merges : ∃ v₁, ∃ removed : List PeerId, Merges v b.topicId
    (r'.topics[b.topicId]?.map (·.genesis)) b.effects.syncObligations v₁ ∧
    v' = removed.foldl (fun v p => v.dropPeer b.topicId p) v₁ ∧ ∀ p ∈ removed, ∃ st st', r.topics[b.topicId]? =
      some st ∧ r'.topics[b.topicId]? = some st' ∧ p ∈ st.members ∧ p ∉ st'.members

theorem AdmitsEvidence.keyed {r r' : Records} {b : AdmittedBatch} (A : AdmitsEvidence v r b r' v') :
    v'.Keyed := by
  obtain ⟨v₁, removed, M, rfl, -⟩ := A.merges
  exact M.keyed.dropPeers removed

/-- A peer that stays a member loses nothing by a batch, and is owed its effects. -/
theorem AdmitsEvidence.stays {r r' : Records} {b : AdmittedBatch} (A : AdmitsEvidence v r b r' v')
    (hmember : ∀ st st', r.topics[t]? = some st → r'.topics[t]? = some st' → peer ∈ st.members →
      peer ∈ st'.members) :
    (∀ d, v.Holds peer t d → v'.Holds peer t d) ∧
    (∀ metas g d, v.Met metas peer t g d → v'.Met metas peer t g d) ∧
      ∀ o ∈ b.effects.syncObligations, o.peerId = peer → o.topicId = t → ∀ d, o.target.Has d →
        ∀ g, r'.topics[t]?.map (·.genesis) = some g → v'.Holds peer t d ∨ v'.Covers peer t g d := by
  obtain ⟨v₁, removed, M, rfl, hremoved⟩ := A.merges
  have hsame : v₁.Same (removed.foldl (fun v p => v.dropPeer b.topicId p) v₁) peer t := by
    refine .dropPeers removed fun ht hp => ?_
    obtain ⟨st, st', hst, hst', hin, hout⟩ := hremoved peer hp
    rw [ht] at hst hst'
    exact hout (hmember st st' hst hst' hin)
  refine ⟨fun d h => hsame.holds (M.held _ _ _ h), fun metas g d ⟨ack, hack, h⟩ =>
    hsame.met ⟨ack, by rw [M.acks]; exact hack, h⟩, fun o ho hp ht d hd g hg => ?_⟩
  obtain ⟨hb, hadd⟩ := M.added o ho
  subst hp ht
  rw [← hb] at hadd
  rcases hadd d hd with h | ⟨g', hg', hkind, h⟩
  · exact Or.inl (hsame.holds h)
  · cases hg.symm.trans hg'
    exact Or.inr ⟨hkind, fun metas => hsame.met (h metas)⟩

variable {K : Prop} {E : Env} {inner inner' : MemoryInner} {reserve : ℕ → Result Unit}
  {quota : Option StagingQuota} {b : AdmittedBatch}

theorem Records.topics_foldl_put (l : List (Op × OpMeta)) (r : Records) :
    (l.foldl Records.put r).topics = r.topics := by
  induction l generalizing r with
  | nil => rfl
  | cons e l ih => exact ih _

/-- The members that a batch removes, whose evidence is dropped. -/
def AdmittedBatch.removedPeers (b : AdmittedBatch) : List PeerId :=
  match b.expectedTopicState, b.topicState with
  | some expected, some state => (expected.members \ state.members).toList
  | _, _ => []

/-- What the checks of a batch have decided about the evidence. -/
theorem admitPlan_evidence {plan : AdmitPlan} (h : admitPlan E reserve quota inner b = .ok plan) :
    (∀ st, b.topicState = some st → st.topicId = b.topicId) ∧ inner.topicState b.topicId = b.expectedTopicState ∧
      mergedEffects inner.toEvidence b.topicId ((b.topicState.or b.expectedTopicState).map (·.genesis))
        b.effects.syncObligations ∅ = .ok plan.effects ∧
      ∀ p ∈ plan.removedPeers, ∃ st st', b.expectedTopicState = some st ∧ b.topicState = some st' ∧
        p ∈ st.members ∧ p ∉ st'.members := by
  unfold admitPlan validateBatch at h
  simp only [bind_eq_ok, refuseIf_eq_ok, not_not] at h
  obtain ⟨-, ⟨-, -, -, htopic, -⟩, -, -, -, hstate, -, -, -, -, effects, heffects, entries, -, -, -, -, -, h⟩ := h
  have hplan : plan.effects = effects ∧ plan.removedPeers = b.removedPeers := by
    split at h <;>
    · simp only [bind_eq_ok, pure_eq_ok] at h
      obtain ⟨-, -, rfl⟩ := h
      exact ⟨rfl, rfl⟩
  refine ⟨fun st hst => ?_, hstate, hplan.1 ▸ heffects, fun p hp => ?_⟩
  · rw [hst] at htopic
    simpa using htopic
  · rw [hplan.2] at hp
    unfold AdmittedBatch.removedPeers at hp
    split at hp
    · rename_i st st' hst hst'
      have hp' := ExtTreeSet.mem_diff_iff.1 (ExtTreeSet.mem_toList.1 hp)
      exact ⟨st, st', hst, hst', hp'⟩
    · cases hp

/-- A batch that is refused changes nothing; one that is admitted records its effects. -/
theorem admitBatchLocked_evidence (reserve : ℕ → Result Unit) (quota : Option StagingQuota) (b : AdmittedBatch)
    (B : inner.BufferOK K) (H : inner.toEvidence.Keyed) :
    (∃ e, admitBatchLocked E reserve quota inner b = (.error e, inner)) ∨
      ∃ inner', admitBatchLocked E reserve quota inner b = (.ok (), inner') ∧
        AdmitsEvidence inner.toEvidence inner.toRecords b inner'.toRecords inner'.toEvidence := by
  unfold admitBatchLocked
  cases hplan : admitPlan E reserve quota inner b with
  | error e => exact Or.inl ⟨e, rfl⟩
  | ok plan =>
    right
    obtain ⟨htopic, hstate, heffects, hremoved⟩ := admitPlan_evidence hplan
    have B₀ : BufferOK K { inner with admittedBytes := inner.admittedBytes + plan.charge }.toRecords
        { inner with admittedBytes := inner.admittedBytes + plan.charge }.toPendingIndex := B
    obtain ⟨inner₁, hforEach, hrec, -, -, hrest⟩ := forEach_writeEntry B₀ plan.entries
    dsimp only
    rw [hforEach]
    have htopics : inner₁.topics = inner.topics := by
      rw [show inner₁.topics = inner₁.toRecords.topics from rfl, hrec]
      exact Records.topics_foldl_put _ _
    have hgenesis : (inner₁.toRecords.writeTopic E b plan.clock).topics[b.topicId]?.map (·.genesis) =
        (b.topicState.or b.expectedTopicState).map (·.genesis) := by
      unfold Records.writeTopic
      cases hst : b.topicState with
      | some st => simp [htopic st hst]
      | none =>
        rw [Option.none_or, ← hstate, htopics]
        unfold Records.topicState
        rw [Option.map_map]
        rfl
    refine ⟨_, rfl, ⟨_, plan.removedPeers, Merges.effects H ?_, by rw [hrest.evidence], fun p hp => ?_⟩⟩
    · rw [hgenesis]
      exact heffects
    · obtain ⟨st, st', hst, hst', hin, hout⟩ := hremoved p hp
      rw [hst] at hstate
      unfold Records.topicState at hstate
      obtain ⟨st₀, hst₀, rfl⟩ := Option.map_eq_some_iff.1 hstate
      refine ⟨st₀, st', hst₀, ?_, hin, hout⟩
      simp [Records.writeTopic, hst', htopic st' hst']

/-- The obligations a write records. -/
def Write.obligations : Write → List SyncObligation
  | .admittedBatch b => b.effects.syncObligations
  | .resetTopicAndAdmit _ _ b _ => b.effects.syncObligations
  | .putSyncObligation o _ => [o]
  | _ => []

/-- The write resets the topic. -/
def Write.Resets (t : TopicId) : Write → Prop
  | .resetTopic t' => t' = t
  | .resetTopicAndAdmit t' _ _ _ => t' = t
  | _ => False

/-- What a write does to the evidence about the peers of its records. -/
inductive EvidenceWrite (v : Evidence) (r : Records) : Write → Result Unit → Records → Evidence → Prop
  | same (w : Write) (res : Result Unit) (r' : Records) (h : res = .ok () → w.obligations = []) :
  EvidenceWrite v r w res r' v
  | acked (ack : PeerAck) {v' : Evidence} (h : AckApplied v r ack v') :
  EvidenceWrite v r (.applyPeerAck ack) (.ok ()) r v'
  | put (o : SyncObligation) (expected : Option OpId) {v' : Evidence} (h : Merges v o.topicId none [o] v') :
      EvidenceWrite v r (.putSyncObligation o expected) (.ok ()) r v'
  | cleared (peer : PeerId) (t : TopicId) (expected : Option OpId)
      (h : peerDeparted r.topics[t]? peer expected = true) :
      EvidenceWrite v r (.clearPeerSyncState peer t expected) (.ok ()) r (v.dropPeer t peer)
  | admitted {b : AdmittedBatch} {r' : Records} {v' : Evidence} (h : AdmitsEvidence v r b r' v') :
      EvidenceWrite v r (.admittedBatch b) (.ok ()) r' v'
  | reset (t : TopicId) (r' : Records) : EvidenceWrite v r (.resetTopic t) (.ok ()) r' (v.dropTopic t)
  | replaced (t : TopicId) (expected : TopicState) {b : AdmittedBatch} (eviction : Option TopicEviction)
      {r' : Records} {v' : Evidence} (h : AdmitsEvidence (v.dropTopic t) (r.resetTopic t) b r' v') :
      EvidenceWrite v r (.resetTopicAndAdmit t expected b eviction) (.ok ()) r' v'

theorem EvidenceWrite.update {α : Type} {f : α → MemoryInner} {res : Result α} {w : Write}
    (h : ∀ a, res = .ok a → EvidenceWrite inner.toEvidence inner.toRecords w (.ok ()) (f a).toRecords
      (f a).toEvidence) :
    EvidenceWrite inner.toEvidence inner.toRecords w (inner.update f res).1 (inner.update f res).2.toRecords
      (inner.update f res).2.toEvidence := by
  cases res with
  | ok a => exact h a rfl
  | error e => exact .same w _ _ fun h => by cases h

theorem resetTopicLocked_evidence (B : inner.BufferOK K) (t : TopicId) (res : Result Unit) :
    (∃ e, resetTopicLocked E res inner t = (.error e, inner)) ∨ ∃ k inner', resetTopicLocked E res inner t =
      (.ok k, inner') ∧ ResetTo K inner t inner' ∧ inner'.toEvidence = inner.toEvidence.dropTopic t := by
  rcases resetTopicLocked_spec (E := E) B t res with ⟨e, -, h⟩ | ⟨k, inner', rfl, h, R⟩
  · exact Or.inl ⟨e, h⟩
  · refine Or.inr ⟨k, inner', h, R, ?_⟩
    unfold resetTopicLocked at h
    dsimp only at h
    split at h
    · cases h
    · cases h
      rfl

/-- Every write does one of these to the evidence. -/
theorem Write.run_evidence (w : Write) (B : inner.BufferOK K) (H : inner.toEvidence.Keyed) :
    EvidenceWrite inner.toEvidence inner.toRecords w (w.run E reserve quota inner).1
      (w.run E reserve quota inner).2.toRecords (w.run E reserve quota inner).2.toEvidence := by
  cases w with
  | admittedBatch b =>
    unfold Write.run
    dsimp only
    rcases admitBatchLocked_evidence (E := E) reserve quota b B H with ⟨e, h⟩ | ⟨inner', h, A⟩
    · rw [h]
      exact .same _ _ _ fun h => by cases h
    · rw [h]
      exact .admitted A
  | resetTopic t =>
    unfold Write.run
    dsimp only
    rcases resetTopicLocked_evidence (E := E) B t (reserve 0) with ⟨e, h⟩ | ⟨k, inner', h, -, hev⟩
    · rw [h]
      exact .same _ _ _ fun _ => rfl
    · rw [h]
      dsimp only
      rw [hev]
      exact .reset t _
  | resetTopicAndAdmit t expected b eviction =>
    unfold Write.run
    dsimp only
    split
    · exact .same _ _ _ fun h => by cases h
    · refine .update fun res hres => ?_
      unfold Irokle.resetTopicAndAdmit at hres
      rcases resetTopicLocked_evidence (E := E) B t (reserve 3) with ⟨e, h⟩ | ⟨k, inner', h, R, hev⟩
      · simp [h, bind_eq_ok] at hres
      · simp only [h, bind_eq_ok, refuseIf_eq_ok, pure_eq_ok] at hres
        obtain ⟨-, -, -, -, -, -, -, -, _, hadmitted, evictions, -, rfl⟩ := hres
        have H' : inner'.toEvidence.Keyed := hev ▸ H.dropTopic
        rcases admitBatchLocked_evidence (E := E) reserve none b R.buffer H' with
          ⟨e, h'⟩ | ⟨inner₂, h', A⟩
        · rw [h'] at hadmitted
          cases hadmitted
        · rw [h']
          rw [hev, R.records] at A
          exact .replaced t expected eviction A
  | putPendingBound source op m genesis => exact .update fun p _ => .same _ _ _ fun _ => rfl
  | removePendingOp | purgePendingWaiters | rejectPendingSubtree | expirePending | unsealTopic | clearEviction =>
    exact .same _ _ _ fun _ => rfl
  | applyPeerAck ack => exact .update fun res hres => .acked ack ((applyAckLocked_post H).of_ok hres)
  | putSyncObligation o expected =>
    refine .update fun v' hv' => ?_
    unfold Irokle.putSyncObligation at hv'
    simp only [bind_eq_ok, pure_eq_ok] at hv'
    obtain ⟨-, -, -, -, merged, hmerged, -, -, rfl⟩ := hv'
    exact .put o expected (Merges.single H hmerged)
  | clearPeerSyncState peer t expected =>
    unfold Write.run Irokle.clearPeerSyncState
    dsimp only
    split
    · exact .cleared peer t expected ‹_›
    · exact .same _ _ _ fun _ => rfl
  | sealTopic t => exact .update fun _ _ => .same _ _ _ fun _ => rfl

theorem EvidenceWrite.keyed {r r' : Records} {w : Write} {res : Result Unit} (W : EvidenceWrite v r w res r' v')
    (H : v.Keyed) :
    v'.Keyed := by
  cases W with
  | same => exact H
  | acked ack h => exact h.keyed
  | put o expected h => exact h.keyed
  | cleared peer t expected h => exact H.dropPeer
  | admitted h => exact h.keyed
  | reset t => exact H.dropTopic
  | replaced t expected eviction h => exact h.keyed

theorem Records.topics_resetTopic (r : Records) (t : TopicId) : (r.resetTopic t).topics = r.topics.erase t := by
  have hdrop : ∀ (l : List OpId) (r : Records), (l.foldl Records.dropOp r).topics = r.topics := by
    intro l
    induction l with
    | nil => exact fun _ => rfl
    | cons id l ih => exact fun r => ih _
  unfold Records.resetTopic Records.dropTopic
  rw [hdrop]

/-- The write keeps the peer on the topic: it stays a member, and its evidence is not cleared as that of a
peer that left. -/
structure Stays (r : Records) (w : Write) (r' : Records) (peer : PeerId) (t : TopicId) : Prop where
  member : ∀ st st', r.topics[t]? = some st → r'.topics[t]? = some st' → peer ∈ st.members → peer ∈ st'.members
  departed : ∀ expected, w = .clearPeerSyncState peer t expected → peerDeparted r.topics[t]? peer expected = false

section Writes

variable {r r' : Records} {w : Write} {res : Result Unit}

theorem Stays.member_reset (hstay : Stays r w r' peer t) (t' : TopicId) (st st' : TopicState)
    (hst : (r.resetTopic t').topics[t]? = some st) :
    r'.topics[t]? = some st' → peer ∈ st.members → peer ∈ st'.members := by
  rw [Records.topics_resetTopic] at hst
  exact hstay.member st st' (BTreeMap.of_getElem?_erase hst).2

/-- The evidence keeps what it says about a peer in a topic. -/
structure Evidence.Keeps (v v' : Evidence) (peer : PeerId) (t : TopicId) : Prop where
  holds : ∀ d, v.Holds peer t d → v'.Holds peer t d
  met : ∀ metas g d, v.Met metas peer t g d → v'.Met metas peer t g d

theorem Evidence.Same.keeps (h : v.Same v' peer t) : v.Keeps v' peer t := ⟨fun _ => h.holds, fun _ _ _ => h.met⟩

theorem Merges.keeps {genesis : Option OpId} {os : List SyncObligation} (M : Merges v t' genesis os v') :
    v.Keeps v' peer t :=
  ⟨fun _ => M.held _ _ _, fun _ _ _ ⟨ack, hack, h⟩ => ⟨ack, by rw [M.acks]; exact hack, h⟩⟩

/-- A write that does not apply an ack keeps what the evidence says about a peer that stays. -/
theorem EvidenceWrite.keeps (W : EvidenceWrite v r w res r' v') (hstay : Stays r w r' peer t)
    (hreset : res = .ok () → ¬w.Resets t) :
    (∃ ack, AckApplied v r ack v' ∧ r' = r) ∨ v.Keeps v' peer t := by
  cases W with
  | same => exact Or.inr ⟨fun _ h => h, fun _ _ _ h => h⟩
  | acked ack A => exact Or.inl ⟨ack, A, rfl⟩
  | put o expected M => exact Or.inr M.keeps
  | cleared peer' t' expected hdep =>
    refine Or.inr (Evidence.Same.dropPeer ?_).keeps
    rintro ⟨rfl, rfl⟩
    rw [hstay.departed expected rfl] at hdep
    cases hdep
  | admitted A => exact Or.inr ⟨(A.stays hstay.member).1, (A.stays hstay.member).2.1⟩
  | reset t' => exact Or.inr (Evidence.Same.dropTopic fun ht => hreset rfl ht.symm).keeps
  | replaced t' expected eviction A =>
    have hsame : v.Same (v.dropTopic t') peer t := .dropTopic fun ht => hreset rfl ht.symm
    obtain ⟨hheld, hmet, -⟩ := A.stays (hstay.member_reset t')
    exact Or.inr ⟨fun d h => hheld d (hsame.holds h), fun metas g d h => hmet metas g d (hsame.met h)⟩

/-- **A write keeps every demand of a peer that stays**, unless the ack it stores meets it. -/
theorem EvidenceWrite.held (W : EvidenceWrite v r w res r' v') (H : v.Keyed) (hstay : Stays r w r' peer t)
    (hreset : res = .ok () → ¬w.Resets t) (hg : r.topics[t]?.map (·.genesis) = some g) (h : v.Holds peer t d) :
    v'.Holds peer t d ∨ v'.Met r'.metas peer t g d := by
  rcases W.keeps hstay hreset with ⟨ack, A, rfl⟩ | hkeeps
  · obtain ⟨st, hst, rfl⟩ := Option.map_eq_some_iff.1 hg
    exact A.keeps H hst h
  · exact Or.inl (hkeeps.holds d h)

/-- A write keeps every position met on the branch. -/
theorem EvidenceWrite.met {a : ActorId} {n : ℕ} (W : EvidenceWrite v r w res r' v') (H : v.Keyed)
    (hstay : Stays r w r' peer t) (hreset : res = .ok () → ¬w.Resets t)
    (hg : r.topics[t]?.map (·.genesis) = some g) (hn : 1 ≤ n) (h : v.Covers peer t g (.position a n)) :
    v'.Covers peer t g (.position a n) := by
  refine ⟨rfl, fun metas => ?_⟩
  rcases W.keeps hstay hreset with ⟨ack, A, rfl⟩ | hkeeps
  · obtain ⟨st, hst, rfl⟩ := Option.map_eq_some_iff.1 hg
    exact A.met H hst hn (h.2 r'.metas)
  · exact hkeeps.met metas g _ (h.2 metas)

/-- **A successful write records its obligations** on the branch it leaves. -/
theorem EvidenceWrite.recorded (W : EvidenceWrite v r w (.ok ()) r' v') (hstay : Stays r w r' peer t)
    (ho : o ∈ w.obligations) (hpeer : o.peerId = peer) (htopic : o.topicId = t) (hd : o.target.Has d)
    (hg : r'.topics[t]?.map (·.genesis) = some g) :
    v'.Holds peer t d ∨ v'.Covers peer t g d := by
  cases W with
  | same _ _ _ h =>
    rw [h rfl] at ho
    cases ho
  | acked => cases ho
  | put o' expected M =>
    obtain rfl : o = o' := by simpa [Write.obligations] using ho
    subst hpeer htopic
    rcases (M.added o (by simp)).2 d hd with h | ⟨g, h, -⟩
    · exact Or.inl h
    · cases h
  | cleared => cases ho
  | admitted A => exact (A.stays hstay.member).2.2 o ho hpeer htopic d hd g hg
  | reset => cases ho
  | replaced t' expected eviction A => exact (A.stays (hstay.member_reset t')).2.2 o ho hpeer htopic d hd g hg

end Writes

/-! ## Steps and runs -/

/-- The obligations an operation records in the active records. -/
def StorageOp.obligations : StorageOp → List SyncObligation
  | .write none w => w.obligations
  | .activateNamespace _ _ effects => effects.syncObligations
  | _ => []

/-- The operation resets the topic in the active records. -/
def StorageOp.Resets (t : TopicId) : StorageOp → Prop
  | .write none w => w.Resets t
  | _ => False

/-- The branch a topic is on. -/
def MemoryStorage.genesisOf (s : MemoryStorage) (t : TopicId) : Option OpId := s.inner.topics[t]?.map (·.genesis)

/-- The operation leaves the topic on branch `g` and the peer among its members, if it was one: the peer's
evidence is not cleared as that of a peer that left. -/
structure StaysOn (E : Env) (s : MemoryStorage) (ev : StorageEvent) (peer : PeerId) (t : TopicId)
    (g : OpId) : Prop where
  genesis : (s.step E ev).genesisOf t = some g
  member : ∀ st st', s.inner.topics[t]? = some st → (s.step E ev).inner.topics[t]? = some st' →
    peer ∈ st.members → peer ∈ st'.members
  departed : ∀ expected, ev.op = .write none (.clearPeerSyncState peer t expected) →
    peerDeparted s.inner.topics[t]? peer expected = false

variable {s : MemoryStorage} {ev : StorageEvent} {evs : List StorageEvent}

/-- What neither writes to the active records nor activates leaves their evidence alone. -/
theorem StorageStep.evidence_eq {s' : MemoryStorage} (h : StorageStep E s ev s')
    (hmain : ∀ w, ev.op ≠ .write none w) (hact : ∀ p expected effects, ev.op ≠
      .activateNamespace p expected effects) : s'.inner.toEvidence = s.inner.toEvidence := by
  cases h with
  | main w => exact absurd rfl (hmain w)
  | activated => exact absurd rfl (hact _ _ _)
  | _ => rfl

/-- What an operation does to the evidence of the active records. -/
theorem evidenceStep (H : StorageOK K s) (HK : s.inner.toEvidence.Keyed) (ev : StorageEvent) :
    ((s.step E ev).inner.toEvidence = s.inner.toEvidence ∧ ((s.apply E ev).1 = .ok () → ev.op.obligations = [])) ∨
      (∃ w, ev.op = .write none w ∧ EvidenceWrite s.inner.toEvidence s.inner.toRecords w (s.apply E ev).1
        (s.step E ev).inner.toRecords (s.step E ev).inner.toEvidence) ∨
      ∃ p expected effects, ev.op = .activateNamespace p expected effects ∧
        (s.step E ev).inner.topics[p.topicId]? = some expected ∧
        Merges s.inner.toEvidence p.topicId (some expected.genesis) effects.syncObligations
          (s.step E ev).inner.toEvidence := by
  obtain ⟨op, reserve⟩ := ev
  cases op with
  | write view w =>
    cases view with
    | none => exact Or.inr (Or.inl ⟨w, rfl, w.run_evidence H.buffer HK⟩)
    | some v => exact Or.inl ⟨(storageStep E s _).evidence_eq (by simp) (by simp), fun _ => rfl⟩
  | openNamespace | touchNamespace | discardNamespace =>
    exact Or.inl ⟨(storageStep E s _).evidence_eq (by simp) (by simp), fun _ => rfl⟩
  | activateNamespace p expected effects =>
    unfold MemoryStorage.step MemoryStorage.apply
    dsimp only
    rcases h : s.activateNamespace reserve p expected effects with ⟨res, s'⟩
    obtain ⟨e, rfl, rfl⟩ | ⟨rfl, ns, changes, moves, A⟩ := activateNamespace_cases h
    · exact Or.inl ⟨rfl, fun h => by cases h⟩
    · refine Or.inr (Or.inr ⟨p, expected, effects, rfl, ?_, ?_⟩)
      · rw [A.eq]
        simp
      · rw [A.eq]
        exact Merges.effects HK A.merged

theorem keyed_step (H : StorageOK K s) (HK : s.inner.toEvidence.Keyed) (ev : StorageEvent) :
    (s.step E ev).inner.toEvidence.Keyed := by
  rcases evidenceStep (E := E) H HK ev with ⟨h, -⟩ | ⟨w, -, W⟩ | ⟨p, expected, effects, -, -, M⟩
  · exact h ▸ HK
  · exact W.keyed HK
  · exact M.keyed

theorem keyed_run (limits : StagingLimits) (evs : List StorageEvent) :
    (MemoryStorage.run E { limits := limits } evs).inner.toEvidence.Keyed := by
  induction evs using List.reverseRecOn with
  | nil => exact Evidence.keyed_empty
  | append_singleton evs ev ih =>
    rw [MemoryStorage.run_snoc]
    exact keyed_step ((storageOK_empty limits).run (K := False) evs False.elim) ih ev

theorem StaysOn.write {w : Write} (h : StaysOn E s ev peer t g) (hop : ev.op = .write none w) :
    Stays s.inner.toRecords w (s.step E ev).inner.toRecords peer t :=
  ⟨h.member, fun expected hw => h.departed expected (hop.trans (hw ▸ rfl))⟩

/-- **One operation keeps what a staying peer is owed**: a demand stays held or is met by the stored ack, and
a position met once stays met. -/
theorem owed_step (H : StorageOK K s) (HK : s.inner.toEvidence.Keyed) (hstay : StaysOn E s ev peer t g)
    (hreset : (s.apply E ev).1 = .ok () → ¬ev.op.Resets t) (hg : s.genesisOf t = some g) :
    (∀ d, s.inner.Holds peer t d → (s.step E ev).inner.Holds peer t d ∨
      (s.step E ev).inner.Met (s.step E ev).inner.metas peer t g d) ∧ ∀ a n, 1 ≤ n →
        s.inner.Covers peer t g (.position a n) → (s.step E ev).inner.Covers peer t g (.position a n) := by
  rcases evidenceStep (E := E) H HK ev with ⟨h, -⟩ | ⟨w, hop, W⟩ | ⟨p, expected, effects, -, -, M⟩
  · rw [h]
    exact ⟨fun d h => Or.inl h, fun a n _ h => h⟩
  · rw [hop] at hreset
    exact ⟨fun d h => W.held HK (hstay.write hop) hreset hg h, fun a n hn h =>
      W.met HK (hstay.write hop) hreset hg hn h⟩
  · exact ⟨fun d h => Or.inl (M.held _ _ _ h),
      fun a n _ h => ⟨rfl, fun metas => M.keeps.met metas g _ (h.2 metas)⟩⟩

/-- An operation that succeeds records its obligations on the branch it leaves. -/
theorem recorded_step (H : StorageOK K s) (HK : s.inner.toEvidence.Keyed) (hstay : StaysOn E s ev peer t g)
    (hok : (s.apply E ev).1 = .ok ()) (ho : o ∈ ev.op.obligations) (hpeer : o.peerId = peer)
    (htopic : o.topicId = t) (hd : o.target.Has d) :
    (s.step E ev).inner.Holds peer t d ∨ (s.step E ev).inner.Covers peer t g d := by
  rcases evidenceStep (E := E) H HK ev with ⟨-, h⟩ | ⟨w, hop, W⟩ | ⟨p, expected, effects, hop, hst, M⟩
  · rw [h hok] at ho
    cases ho
  · rw [hok] at W
    rw [hop] at ho
    exact W.recorded (hstay.write hop) ho hpeer htopic hd hstay.genesis
  · rw [hop] at ho
    obtain ⟨ht, hadd⟩ := M.added o ho
    subst hpeer
    rw [htopic] at ht
    subst ht
    rcases hadd d hd with h | ⟨g', hg', h⟩
    · exact Or.inl h
    · have hg := hstay.genesis
      rw [MemoryStorage.genesisOf, hst] at hg
      cases hg
      cases hg'
      exact Or.inr h

/-- What was recorded stays owed while the peer stays on the branch. -/
theorem owed_steps (evs : List StorageEvent) (H : StorageOK False s) (HK : s.inner.toEvidence.Keyed)
    (hg : s.genesisOf t = some g)
    (hstay : ∀ mid ev' rest, evs = mid ++ ev' :: rest → StaysOn E (s.run E mid) ev' peer t g)
    (hreset : ∀ mid ev' rest, evs = mid ++ ev' :: rest → ((s.run E mid).apply E ev').1 = .ok () →
      ¬ev'.op.Resets t) :
    (s.run E evs).genesisOf t = some g ∧ ∀ a n, 1 ≤ n →
      s.inner.Holds peer t (.position a n) ∨ s.inner.Covers peer t g (.position a n) →
      (s.run E evs).inner.Holds peer t (.position a n) ∨ (s.run E evs).inner.Covers peer t g (.position a n) := by
  induction evs generalizing s with
  | nil => exact ⟨hg, fun a n _ h => h⟩
  | cons ev evs ih =>
    have hfirst := hstay [] ev evs rfl
    obtain ⟨hheld, hmet⟩ := owed_step H HK hfirst (hreset [] ev evs rfl) hg
    obtain ⟨hg', hrun⟩ := ih (H.step ev False.elim) (keyed_step H HK ev) hfirst.genesis
      (fun mid ev' rest h => hstay (ev :: mid) ev' rest (by rw [h]; rfl))
      (fun mid ev' rest h => hreset (ev :: mid) ev' rest (by rw [h]; rfl))
    refine ⟨hg', fun a n hn h => hrun a n hn ?_⟩
    rcases h with h | h
    · exact (hheld _ h).imp_right fun ⟨ack, hack, hgen, hm⟩ => ⟨rfl, fun _ => ⟨ack, hack, hgen, hm⟩⟩
    · exact Or.inr (hmet a n hn h)

/-- **Replication obligations are never lost.** Once an operation has recorded obligation `o` on branch `g`,
then as long as its peer stays among the members and the topic is not reset, each position of `o` is still held
by the stored obligation or reached by the stored ack on `g`, each repair id of `o` is held at first, and an
operation drops a repair id only when the ack it leaves on `g` reaches that id. -/
theorem obligations_kept (limits : StagingLimits) (pre post : List StorageEvent) (ev : StorageEvent)
    (o : SyncObligation) (g : OpId)
    (hok : ((MemoryStorage.run E { limits := limits } pre).apply E ev).1 = .ok ()) (ho : o ∈ ev.op.obligations)
    (hstay : ∀ mid ev' rest, ev :: post = mid ++ ev' :: rest →
      StaysOn E (MemoryStorage.run E { limits := limits } (pre ++ mid)) ev' o.peerId o.topicId g)
    (hreset : ∀ mid ev' rest, post = mid ++ ev' :: rest →
      ((MemoryStorage.run E { limits := limits } (pre ++ ev :: mid)).apply E ev').1 = .ok () →
        ¬ev'.op.Resets o.topicId) :
    (∀ a n, o.target.Has (.position a n) →
      (MemoryStorage.run E { limits := limits } (pre ++ ev :: post)).inner.Holds o.peerId o.topicId
        (.position a n) ∨
      ∃ ack, (MemoryStorage.run E { limits := limits }
        (pre ++ ev :: post)).inner.peerAcks[(o.peerId, o.topicId)]? = some ack ∧
        ack.genesis = some g ∧ n ≤ ack.clock.get a) ∧
      (∀ id, o.target.Has (.repair id) →
        (MemoryStorage.run E { limits := limits } (pre ++ [ev])).inner.Holds o.peerId o.topicId (.repair id)) ∧
      ∀ mid ev' rest, post = mid ++ ev' :: rest → ∀ id,
        (MemoryStorage.run E { limits := limits } (pre ++ ev :: mid)).inner.Holds o.peerId o.topicId
          (.repair id) →
        (MemoryStorage.run E { limits := limits } (pre ++ ev :: (mid ++ [ev']))).inner.Holds o.peerId o.topicId
          (.repair id) ∨
        (MemoryStorage.run E { limits := limits } (pre ++ ev :: (mid ++ [ev']))).inner.Met
          (MemoryStorage.run E { limits := limits } (pre ++ ev :: (mid ++ [ev']))).inner.metas o.peerId o.topicId
            g (.repair id) := by
  set s₀ := MemoryStorage.run E { limits := limits } pre with hs₀
  have H₀ : StorageOK False s₀ := (storageOK_empty limits).run pre False.elim
  have hrun : ∀ evs, MemoryStorage.run E { limits := limits } (pre ++ ev :: evs) = (s₀.step E ev).run E evs :=
    fun evs => MemoryStorage.run_append pre (ev :: evs)
  have hfirst : StaysOn E s₀ ev o.peerId o.topicId g := by
    have := hstay [] ev post rfl
    rwa [append_nil] at this
  have hstay' : ∀ mid ev' rest, post = mid ++ ev' :: rest →
      StaysOn E ((s₀.step E ev).run E mid) ev' o.peerId o.topicId g := by
    intro mid ev' rest h
    rw [← hrun]
    exact hstay (ev :: mid) ev' rest (by rw [h]; rfl)
  have hreset' : ∀ mid ev' rest, post = mid ++ ev' :: rest →
      (((s₀.step E ev).run E mid).apply E ev').1 = .ok () → ¬ev'.op.Resets o.topicId := by
    intro mid ev' rest h
    rw [← hrun]
    exact hreset mid ev' rest h
  have H₁ : StorageOK False (s₀.step E ev) := H₀.step ev False.elim
  have HK₁ := keyed_step (E := E) H₀ (keyed_run limits pre) ev
  have hadded : ∀ d, o.target.Has d → _ :=
    fun d hd => recorded_step (d := d) H₀ (keyed_run limits pre) hfirst hok ho rfl rfl hd
  refine ⟨fun a n hd => ?_, fun id hd => ?_, fun mid ev' rest h id hheld => ?_⟩
  · rw [hrun]
    have hn : 1 ≤ n := by
      rcases hd.cases with ⟨clk, a', n', -, heq, h1, -⟩ | ⟨ids, id, -, heq, -⟩ <;> cases heq
      exact h1
    rcases (owed_steps post H₁ HK₁ hfirst.genesis hstay' hreset').2 a n hn (hadded _ hd) with h | h
    · exact Or.inl h
    · exact Or.inr (h.2 ∅)
  · rw [hrun]
    exact (hadded _ hd).resolve_right fun h => by cases h.1
  · rw [hrun, MemoryStorage.run_snoc]
    rw [hrun] at hheld
    -- the branch at the drop is the one of the recording
    have hg := (owed_steps mid H₁ HK₁ hfirst.genesis
      (fun mid' ev₂ rest' h' => hstay' mid' ev₂ (rest' ++ ev' :: rest) (by rw [h, h']; simp))
      (fun mid' ev₂ rest' h' => hreset' mid' ev₂ (rest' ++ ev' :: rest) (by rw [h, h']; simp))).1
    have HK := keyed_run (E := E) limits (pre ++ ev :: mid)
    rw [hrun] at HK
    exact (owed_step (H₁.run mid False.elim) HK (hstay' mid ev' rest h) (hreset' mid ev' rest h) hg).1 _ hheld

/-- Two positions of actor 1 are owed to peer 2. -/
def owedEvents : SyncObligation :=
  ⟨IdType.ofNat 2, IdType.ofNat 1, .clock (ActorClock.observe ∅ (IdType.ofNat 1) 2)⟩

/-- Record what peer 2 is owed. -/
def oweEvent : StorageEvent := { op := .write none (.putSyncObligation owedEvents (some stagedGenesis.id)) }

/-- Peer 2 acknowledges the first position. -/
def ackEvent : StorageEvent :=
  { op := .write none (.applyPeerAck ⟨IdType.ofNat 2, IdType.ofNat 1, some stagedGenesis.id, {stagedGenesis.id},
      ActorClock.observe ∅ (IdType.ofNat 1) 1⟩) }

/-- A step that leaves the topic on `g` with the peer among its members. -/
theorem StaysOn.of_member (hg : (s.step E ev).genesisOf t = some g)
    (hmember : ((s.step E ev).inner.topics[t]?.any fun st => decide (peer ∈ st.members)) = true)
    (hop : ∀ expected, ev.op ≠ .write none (.clearPeerSyncState peer t expected)) : StaysOn E s ev peer t g := by
  refine ⟨hg, fun st st' _ hst' _ => ?_, fun expected h => absurd h (hop expected)⟩
  rw [hst'] at hmember
  simpa using hmember

theorem obligations_kept_partlyAcked :
    (MemoryStorage.run (Env.ofTable []) {}
      [{ op := .write none (.admittedBatch stagedBatch) }, oweEvent, ackEvent]).inner.Holds (IdType.ofNat 2)
        (IdType.ofNat 1) (.position (IdType.ofNat 1) 2) ∨
    ∃ ack, (MemoryStorage.run (Env.ofTable []) {}
      [{ op := .write none (.admittedBatch stagedBatch) }, oweEvent, ackEvent]).inner.peerAcks[
        ((IdType.ofNat 2, IdType.ofNat 1) : PeerId × TopicId)]? = some ack ∧ ack.genesis = some stagedGenesis.id ∧
      2 ≤ ack.clock.get (IdType.ofNat 1) := by
  refine (obligations_kept (E := Env.ofTable []) .memory [{ op := .write none (.admittedBatch stagedBatch) }]
    [ackEvent] oweEvent owedEvents stagedGenesis.id (by decide +kernel)
    (by simp [oweEvent, StorageOp.obligations, Write.obligations]) ?_ ?_).1 _ _ ?_
  · intro mid ev' rest h
    match mid with
    | [] =>
      cases h
      exact .of_member (by decide +kernel) (by decide +kernel) fun _ h => by cases h
    | [_] =>
      cases h
      exact .of_member (by decide +kernel) (by decide +kernel) fun _ h => by cases h
    | _ :: _ :: mid =>
      have := congrArg List.length h
      simp at this
  · intro mid ev' rest h _
    match mid with
    | [] =>
      cases h
      exact id
    | _ :: mid =>
      have := congrArg List.length h
      simp at this
  · exact ⟨by decide, by decide +kernel⟩

end Irokle
