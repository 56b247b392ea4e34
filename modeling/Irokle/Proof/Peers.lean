import Irokle.Lib.Fill
import Irokle.Spec.Peers

/-!
# The selected peers

Each pass of `select_sync_targets` fills slots of one set. The ring lists every candidate, so after its
pass the set is full or holds every healthy candidate, and what the last pass adds are demoted peers
that no healthy one is left for.

* `selectSyncTargets_spec` — how many peers are selected, which they are, how many of them are demoted,
  and when the selection is blocked.
* `syncGraph_connected` — every healthy peer picks the highest ranked healthy peer of the scope or all of
  the scope, so the choices of all members connect the healthy ones.
-/

namespace Irokle

open Std Fill List ExtTreeSet

variable {S : PeerScores} {t : TopicId} {localPeer p q : PeerId} {st : TopicState} {health : PeerHealth}
  {order : List PeerId} {selected : BTreeSet PeerId} {start limit : ℕ} {allowed : Bool}

/-- A peer the policy of a topic lets `localPeer` sync with. -/
def Allowed (st : TopicState) (localPeer p : PeerId) : Prop :=
  p ∈ st.members ∧ (st.replicationPolicy.selectedPeers ≠ ∅ → p ∈ st.replicationPolicy.selectedPeers) ∧
    p ≠ localPeer

/-- The peers of the policy scope other than the local one, in the order of their ids. -/
def syncCandidates (localPeer : PeerId) (st : TopicState) : List PeerId :=
  (syncScope localPeer st).toList.filter fun p => decide (p ≠ localPeer)

theorem mem_syncCandidates : p ∈ syncCandidates localPeer st ↔ Allowed st localPeer p := by
  unfold syncCandidates syncScope Allowed
  rw [List.mem_filter, mem_toList, mem_insert, Std.compare_eq_iff_eq, decide_eq_true_eq]
  by_cases hnone : st.replicationPolicy.selectedPeers = ∅
  · simp only [hnone, isEmpty_empty, if_true, ne_eq, not_true_eq_false, false_imp_iff, true_and]
    constructor
    · rintro ⟨rfl | hp, hne⟩
      · exact absurd rfl hne
      · exact ⟨hp, hne⟩
    · rintro ⟨hp, hne⟩
      exact ⟨Or.inr hp, hne⟩
  · have hempty : st.replicationPolicy.selectedPeers.isEmpty = false := by
      rw [Bool.eq_false_iff, ne_eq, ExtTreeSet.isEmpty_iff]
      exact hnone
    simp only [hempty, Bool.false_eq_true, if_false, ExtTreeSet.mem_inter_iff, ne_eq, hnone, not_false_eq_true,
      true_imp_iff]
    constructor
    · rintro ⟨rfl | ⟨hs, hm⟩, hne⟩
      · exact absurd rfl hne
      · exact ⟨hm, hs, hne⟩
    · rintro ⟨hm, hs, hne⟩
      exact ⟨Or.inr ⟨hs, hm⟩, hne⟩

theorem nodup_syncCandidates : (syncCandidates localPeer st).Nodup := (BTreeSet.nodup_toList _).filter _

/-! ## The orders -/

/-- One visit of the loop of `ringOrder`. -/
def ringVisit (nodes : List PeerId) (localPeer : PeerId) (ring : List PeerId) (index : ℕ) : List PeerId :=
  match nodes[index]? with
  | none => ring
  | some peer => if peer ≠ localPeer ∧ peer ∉ ring then ring ++ [peer] else ring

/-- One visit of the loop of `probeOrder`. -/
def probeVisit (probe : List PeerId) (peer : PeerId) : List PeerId :=
  if probe.length ≥ peerProbeWindow then probe else if peer ∈ probe then probe else probe ++ [peer]

/-- The peers in the order a pass visits them. -/
theorem rotate_eq_filterMap (order : List PeerId) (start : ℕ) :
    order.rotate start = (List.range order.length).filterMap fun i => order[(start + i) % order.length]? := by
  have htake : ∀ n ≤ order.length,
      ((List.range n).filterMap fun i => order[(start + i) % order.length]?) = (order.rotate start).take n := by
    intro n hn
    induction n with
    | zero => simp
    | succ n ih =>
      rw [range_succ, filterMap_append, ih (by omega), take_add_one, getElem?_rotate hn, Nat.add_comm n start]
      cases h : order[(start + n) % order.length]? <;> simp [h]
  rw [htake _ (Nat.le_refl _), take_of_length_le (by simp)]

theorem takeSlots_eq : takeSlots selected order start limit health allowed =
    fill limit (fun p => allowed || !health.demoted p) selected (order.rotate start) := by
  unfold takeSlots fill
  rw [rotate_eq_filterMap, foldl_filterMap]
  congr 1
  funext selected step
  unfold put
  cases order[(start + step) % order.length]? <;> simp

/-- The ring lists every peer of the scope but the local one. -/
theorem mem_ringOrder {scope : BTreeSet PeerId} (hlocal : localPeer ∈ scope) :
    p ∈ ringOrder scope localPeer ↔ p ∈ scope ∧ p ≠ localPeer := by
  -- a visit adds the peer at an index unless it is the local one
  have hvisit : ∀ (nodes : List PeerId) (indexes : List ℕ) (ring : List PeerId),
      p ∈ indexes.foldl (ringVisit nodes localPeer) ring ↔ p ∈ ring ∨ p ≠ localPeer ∧
      ∃ i ∈ indexes, nodes[i]? = some p := by
    intro nodes indexes
    induction indexes with
    | nil => simp
    | cons i indexes ih =>
      intro ring
      rw [foldl_cons, ih]
      unfold ringVisit
      cases hi : nodes[i]? with
      | none => simp [hi]
      | some q =>
        by_cases hq : q ≠ localPeer ∧ q ∉ ring
        · simp only [if_pos hq, mem_append, mem_singleton, exists_mem_cons_iff, hi, Option.some.injEq]
          grind
        · simp only [if_neg hq, exists_mem_cons_iff, hi, Option.some.injEq]
          grind
  unfold ringOrder
  dsimp only
  cases hindex : scope.toList.idxOf? localPeer with
  | none => exact absurd (mem_toList.2 hlocal) (idxOf?_eq_none_iff.1 hindex)
  | some index =>
    obtain ⟨hlt, hat, -⟩ := idxOf?_eq_some_iff.1 hindex
    refine (hvisit _ _ _).trans ?_
    constructor
    · rintro (h | ⟨hne, i, -, hi⟩)
      · cases h
      · exact ⟨mem_toList.1 (mem_of_getElem? hi), hne⟩
    · rintro ⟨hp, hne⟩
      obtain ⟨j, hj⟩ := mem_iff_getElem?.1 (mem_toList.2 hp)
      have hjlt := (List.getElem?_eq_some_iff.1 hj).1
      have hji : j ≠ index := by
        rintro rfl
        rw [getElem?_eq_getElem hlt, hat] at hj
        exact hne (Option.some.inj hj).symm
      refine Or.inr ⟨hne, j, mem_flatMap.2 ?_, hj⟩
      -- going up from the local peer, around the end if the index is below its own
      rcases Nat.lt_or_gt_of_ne hji with hbelow | habove
      · refine ⟨j + scope.toList.length - index - 1, mem_range.2 (by omega), ?_⟩
        have hsum : index + (j + scope.toList.length - index - 1 + 1) = j + scope.toList.length := by omega
        rw [hsum, Nat.add_mod_right, Nat.mod_eq_of_lt hjlt]
        exact mem_cons_self
      · refine ⟨j - index - 1, mem_range.2 (by omega), ?_⟩
        have hsum : index + (j - index - 1 + 1) = j := by omega
        rw [hsum, Nat.mod_eq_of_lt hjlt]
        exact mem_cons_self

theorem mem_of_mem_probeOrder {hubs ring : List PeerId} (h : p ∈ probeOrder hubs ring) : p ∈ hubs ∨ p ∈ ring := by
  have hfold : ∀ (l acc : List PeerId), p ∈ l.foldl probeVisit acc → p ∈ acc ∨ p ∈ l := by
    intro l
    induction l with
    | nil => exact fun acc h => Or.inl h
    | cons q l ih =>
      intro acc h
      rcases ih _ h with h | h
      · unfold probeVisit at h
        split at h
        · exact Or.inl h
        · split at h
          · exact Or.inl h
          · rcases mem_append.1 h with h | h
            · exact Or.inl h
            · exact Or.inr (mem_singleton.1 h ▸ mem_cons_self)
      · exact Or.inr (mem_cons_of_mem _ h)
  rcases hfold _ [] h with h | h
  · cases h
  · exact (mem_append.1 h).imp_left mem_of_mem_take

/-- The probe order starts with the highest ranked hub. -/
theorem probeOrder_cons (hubs ring : List PeerId) : ∃ rest, probeOrder (p :: hubs) ring = p :: rest := by
  have hfold : ∀ (l acc : List PeerId), ∃ rest, l.foldl probeVisit (p :: acc) = p :: rest := by
    intro l
    induction l with
    | nil => exact fun acc => ⟨acc, rfl⟩
    | cons q l ih =>
      intro acc
      rw [foldl_cons]
      unfold probeVisit
      split
      · exact ih acc
      · split
        · exact ih acc
        · exact ih (acc ++ [q])
  exact hfold ring []

/-! ## The slots -/

/-- The orders list candidates only, and the ring all of them. -/
structure CandidateOrder.Covers (o : CandidateOrder) : Prop where
  hubs : ∀ p ∈ o.hubs, p ∈ o.candidates
  ring : ∀ p, p ∈ o.ring ↔ p ∈ o.candidates
  probe : ∀ p ∈ o.probe, p ∈ o.candidates
  nodup : o.candidates.Nodup

theorem buildOrder_covers (S : PeerScores) (t : TopicId) (localPeer : PeerId) (st : TopicState) :
    (buildOrder S t localPeer st).Covers := by
  have hring : ∀ p, p ∈ (buildOrder S t localPeer st).ring ↔ p ∈ syncCandidates localPeer st := by
    intro p
    have hlocal : localPeer ∈ syncScope localPeer st := ExtTreeSet.mem_insert_self
    refine (mem_ringOrder hlocal).trans ?_
    rw [syncCandidates, List.mem_filter, mem_toList, decide_eq_true_eq]
  have hhubs : ∀ p ∈ (buildOrder S t localPeer st).hubs, p ∈ syncCandidates localPeer st := fun p hp =>
    (mem_insertionSort _).1 hp
  refine ⟨hhubs, hring, fun p hp => ?_, nodup_syncCandidates⟩
  rcases mem_of_mem_probeOrder hp with hp | hp
  · exact hhubs p hp
  · exact (hring p).1 hp

section Slots

variable {o : CandidateOrder} {budget : ℕ}

/-- The set after the pass that tries one demoted peer. -/
def probed (o : CandidateOrder) (health : PeerHealth) : BTreeSet PeerId :=
  if health.probesDemoted then takeSlots ∅ o.probe (health.rotation o.probe.length) 1 health true else ∅

/-- The set after the pass over the hubs, or over the probe order when there is one slot. -/
def preferred (o : CandidateOrder) (budget : ℕ) (health : PeerHealth) : BTreeSet PeerId :=
  if budget = 1 then takeSlots (probed o health) o.probe (health.rotation o.probe.length) budget health false
  else takeSlots (probed o health) o.hubs 0 (min (sharedOverlap + 1) (budget - 1)) health false

/-- The set after the pass over the ring. -/
def ringed (o : CandidateOrder) (budget : ℕ) (health : PeerHealth) : BTreeSet PeerId :=
  takeSlots (preferred o budget health) o.ring (health.rotation o.probe.length) budget health false

theorem fillSlots_eq : fillSlots o budget health =
    takeSlots (ringed o budget health) o.candidates (health.rotation o.probe.length) budget health true := rfl

theorem size_probed_le : (probed o health).size ≤ if health.probesDemoted then 1 else 0 := by
  unfold probed
  split
  · rw [takeSlots_eq]
    exact size_fill_le (by simp)
  · simp

theorem mem_probed (C : o.Covers) (h : p ∈ probed o health) : p ∈ o.candidates := by
  unfold probed at h
  split at h
  · rw [takeSlots_eq] at h
    rcases mem_of_mem_fill h with h | ⟨h, -⟩
    · simp at h
    · exact C.probe p (mem_rotate.1 h)
  · simp at h

theorem size_preferred_le (hbudget : 1 ≤ budget) : (preferred o budget health).size ≤ budget := by
  have hprobed : (probed o health).size ≤ 1 := size_probed_le.trans (by split <;> omega)
  unfold preferred
  split
  · rw [takeSlots_eq]
    exact size_fill_le (by omega)
  · rw [takeSlots_eq]
    have hroom : (probed o health).size ≤ min (sharedOverlap + 1) (budget - 1) := by
      unfold sharedOverlap
      omega
    exact (size_fill_le hroom).trans (by omega)

theorem mem_preferred (C : o.Covers) (h : p ∈ preferred o budget health) :
    p ∈ probed o health ∨ p ∈ o.candidates ∧ health.demoted p = false := by
  unfold preferred at h
  split at h <;>
  · rw [takeSlots_eq] at h
    rcases mem_of_mem_fill h with h | ⟨hmem, hok⟩
    · exact Or.inl h
    · refine Or.inr ⟨?_, by simpa using hok⟩
      first | exact C.probe p (mem_rotate.1 hmem) | exact C.hubs p (mem_rotate.1 hmem)

theorem mem_ringed (C : o.Covers) (h : p ∈ ringed o budget health) :
    p ∈ probed o health ∨ p ∈ o.candidates ∧ health.demoted p = false := by
  unfold ringed at h
  rw [takeSlots_eq] at h
  rcases mem_of_mem_fill h with h | ⟨hmem, hok⟩
  · exact mem_preferred C h
  · exact Or.inr ⟨(C.ring p).1 (mem_rotate.1 hmem), by simpa using hok⟩

/-- **After the ring the set is full or holds every healthy candidate.** -/
theorem ringed_full_or (budget : ℕ) (health : PeerHealth) (C : o.Covers) :
    budget ≤ (ringed o budget health).size ∨ ∀ p ∈ o.candidates, health.demoted p = false →
      p ∈ ringed o budget health := by
  unfold ringed
  rw [takeSlots_eq]
  refine fill_full_or.imp_right fun hall p hp hhealthy => ?_
  exact hall p (mem_rotate.2 ((C.ring p).2 hp)) (by simp [hhealthy])

theorem size_ringed_le (hbudget : 1 ≤ budget) : (ringed o budget health).size ≤ budget := by
  unfold ringed
  rw [takeSlots_eq]
  exact size_fill_le (size_preferred_le hbudget)

theorem mem_fillSlots (C : o.Covers) (h : p ∈ fillSlots o budget health) : p ∈ o.candidates := by
  rw [fillSlots_eq, takeSlots_eq] at h
  rcases mem_of_mem_fill h with h | ⟨h, -⟩
  · exact (mem_ringed C h).elim (mem_probed C) And.left
  · exact mem_rotate.1 h

theorem size_fillSlots (C : o.Covers) (hbudget : 1 ≤ budget) (hover : budget < o.candidates.length) :
    (fillSlots o budget health).size = budget := by
  have hle : (fillSlots o budget health).size ≤ budget := by
    rw [fillSlots_eq, takeSlots_eq]
    exact size_fill_le (size_ringed_le hbudget)
  have hor : budget ≤ (fillSlots o budget health).size ∨ ∀ p ∈ o.candidates, p ∈ fillSlots o budget health := by
    rw [fillSlots_eq, takeSlots_eq]
    exact fill_full_or.imp_right fun hall p hp => hall p (mem_rotate.2 hp) rfl
  rcases hor with hfull | hall
  · omega
  · have hsub : o.candidates ⊆ (fillSlots o budget health).toList := fun p hp =>
      mem_toList.2 (hall p hp)
    have hlength := (subperm_of_subset C.nodup hsub).length_le
    rw [length_toList] at hlength
    omega

/-- **The demoted peers that are selected** are the one that is tried again, or those no healthy candidate was
left for. -/
theorem demoted_fillSlots (C : o.Covers) (hbudget : 1 ≤ budget) (hover : budget < o.candidates.length) :
    ((fillSlots o budget health).toList.filter health.demoted).length ≤
      max (if health.probesDemoted then 1 else 0)
        (budget - (o.candidates.filter fun p => !health.demoted p).length) := by
  rcases ringed_full_or budget health C with hfull | hall
  · -- the last pass adds nothing, and the passes before it only healthy peers
    have heq : fillSlots o budget health = ringed o budget health := by
      rw [fillSlots_eq, takeSlots_eq, fill_of_full hfull]
    have hsub : (fillSlots o budget health).toList.filter health.demoted ⊆ (probed o health).toList := by
      intro p hp
      obtain ⟨hp, hdemoted⟩ := List.mem_filter.1 hp
      rw [heq, mem_toList] at hp
      rcases mem_ringed C hp with hp | ⟨-, hhealthy⟩
      · exact mem_toList.2 hp
      · rw [hdemoted] at hhealthy
        cases hhealthy
    have hlength := (subperm_of_subset ((BTreeSet.nodup_toList _).filter _) hsub).length_le
    rw [length_toList] at hlength
    exact (hlength.trans size_probed_le).trans (le_max_left _ _)
  · have hsub : (o.candidates.filter fun p => !health.demoted p) ⊆
        (fillSlots o budget health).toList.filter fun p => !health.demoted p := by
      intro p hp
      obtain ⟨hp, hhealthy⟩ := List.mem_filter.1 hp
      refine List.mem_filter.2 ⟨mem_toList.2 ?_, hhealthy⟩
      rw [fillSlots_eq, takeSlots_eq]
      exact mem_fill_of_mem (hall p hp (by simpa using hhealthy)) _
    have hlength := (subperm_of_subset (C.nodup.filter _) hsub).length_le
    have hsplit := length_eq_length_filter_add (l := (fillSlots o budget health).toList) health.demoted
    rw [length_toList, size_fillSlots C hbudget hover] at hsplit
    have hleft : ((fillSlots o budget health).toList.filter health.demoted).length ≤
        budget - (o.candidates.filter fun p => !health.demoted p).length := by
      omega
    exact hleft.trans (le_max_right _ _)

end Slots

/-- **The selected peers.** As many as the budget and the candidates allow, each of them once, all allowed by
the policy. With more candidates than slots, demoted peers fill only the slot that tries one again or those
left without a healthy candidate. The selection is blocked when there is a budget and candidates, all of them
demoted. -/
theorem selectSyncTargets_spec (S : PeerScores) (t : TopicId) (localPeer : PeerId) (st : TopicState)
    (health : PeerHealth) :
    (selectSyncTargets S t localPeer st health).peers.length =
        min st.replicationPolicy.maxSyncPeers (syncCandidates localPeer st).length ∧
      (selectSyncTargets S t localPeer st health).peers.Nodup ∧
      (∀ p ∈ (selectSyncTargets S t localPeer st health).peers, p ∈ st.members ∧
        (st.replicationPolicy.selectedPeers ≠ ∅ → p ∈ st.replicationPolicy.selectedPeers) ∧ p ≠ localPeer) ∧
      ((syncCandidates localPeer st).length > st.replicationPolicy.maxSyncPeers →
        ((selectSyncTargets S t localPeer st health).peers.filter health.demoted).length ≤
          max (if health.probesDemoted then 1 else 0)
            (st.replicationPolicy.maxSyncPeers - ((syncCandidates localPeer st).filter fun p =>
              !health.demoted p).length)) ∧
      ((selectSyncTargets S t localPeer st health).blocked = true ↔ 1 ≤ st.replicationPolicy.maxSyncPeers ∧
        syncCandidates localPeer st ≠ [] ∧ ∀ p ∈ syncCandidates localPeer st, health.demoted p = true) := by
  have C := buildOrder_covers S t localPeer st
  have hcandidates : (buildOrder S t localPeer st).candidates = syncCandidates localPeer st := rfl
  unfold selectSyncTargets
  dsimp only
  rw [hcandidates]
  split
  · rename_i hzero
    simp [hzero]
  · rename_i hpos
    split
    · rename_i hempty
      rw [List.isEmpty_iff] at hempty
      simp [hempty]
    · rename_i hne
      rw [List.isEmpty_iff] at hne
      dsimp only
      refine ⟨?_, ?_, ?_, ?_, ?_⟩
      · split
        · omega
        · rename_i hover
          rw [length_toList, size_fillSlots C (by omega) (by rw [hcandidates]; omega)]
          omega
      · split
        · exact nodup_syncCandidates
        · exact BTreeSet.nodup_toList _
      · intro p hp
        refine mem_syncCandidates.1 ?_
        split at hp
        · exact hp
        · exact mem_fillSlots C (mem_toList.1 hp)
      · intro hover
        rw [if_neg (by omega)]
        exact demoted_fillSlots C (by omega) (by rw [hcandidates]; exact hover)
      · rw [all_eq_true]
        exact ⟨fun h => ⟨by omega, hne, h⟩, fun h => h.2.2⟩

/-! ## The graph of all choices -/

/-- A member that the policy of a topic lets sync. -/
def InScope (st : TopicState) (p : PeerId) : Prop :=
  p ∈ st.members ∧ (st.replicationPolicy.selectedPeers ≠ ∅ → p ∈ st.replicationPolicy.selectedPeers)

/-- The edges from every member that is not demoted to the peers selected for it. -/
def syncGraph (S : PeerScores) (t : TopicId) (st : TopicState) (health : PeerHealth) : SimpleGraph PeerId :=
  SimpleGraph.fromRel fun p q => p ∈ st.members ∧ health.demoted p = false ∧
    q ∈ (selectSyncTargets S t p st health).peers

/-- The rank of a hub, lowest first. -/
def hubRank (S : PeerScores) (t : TopicId) (p : PeerId) : Digestᵒᵈ ×ₗ PeerId :=
  toLex (OrderDual.toDual (S.syncPeerScore t S.shared p), p)

/-- The healthy peer of the scope that all others rank first. -/
structure IsHub (S : PeerScores) (t : TopicId) (st : TopicState) (health : PeerHealth) (h : PeerId) : Prop where
  scope : InScope st h
  healthy : health.demoted h = false
  first : ∀ p, InScope st p → health.demoted p = false → hubRank S t h ≤ hubRank S t p

theorem exists_hub (hp : InScope st p) (hhealthy : health.demoted p = false) : ∃ h, IsHub S t st health h := by
  classical
  let healthy := (st.members.toList.filter fun p => decide (InScope st p) && !health.demoted p).toFinset
  have hmem : ∀ q, q ∈ healthy ↔ InScope st q ∧ health.demoted q = false := by
    intro q
    simp only [healthy, mem_toFinset, List.mem_filter, mem_toList, Bool.and_eq_true, decide_eq_true_eq,
      Bool.not_eq_true']
    exact ⟨fun h => h.2, fun h => ⟨h.1.1, h⟩⟩
  obtain ⟨h, hh, hmin⟩ := healthy.exists_min_image (hubRank S t) ⟨p, (hmem p).2 ⟨hp, hhealthy⟩⟩
  exact ⟨h, ((hmem h).1 hh).1, ((hmem h).1 hh).2, fun q hq hqh => hmin q ((hmem q).2 ⟨hq, hqh⟩)⟩

/-- The hub is the first healthy one in the order of every other peer. -/
theorem IsHub.splits {h : PeerId} (H : IsHub S t st health h) (hne : h ≠ localPeer) :
    ∃ before after, (buildOrder S t localPeer st).hubs = before ++ h :: after ∧
      ∀ b ∈ before, health.demoted b = true := by
  have hcand : h ∈ syncCandidates localPeer st := mem_syncCandidates.2 ⟨H.scope.1, H.scope.2, hne⟩
  have hin : h ∈ (buildOrder S t localPeer st).hubs := (mem_insertionSort _).2 hcand
  obtain ⟨before, after, hsplit⟩ := append_of_mem hin
  refine ⟨before, after, hsplit, fun b hb => ?_⟩
  have hsorted : (buildOrder S t localPeer st).hubs.Pairwise fun p q => hubRank S t p ≤ hubRank S t q :=
    pairwise_insertionSort (fun p q => hubRank S t p ≤ hubRank S t q) (syncCandidates localPeer st)
  have hnodup : (buildOrder S t localPeer st).hubs.Nodup :=
    (perm_insertionSort (fun p q => hubRank S t p ≤ hubRank S t q) (syncCandidates localPeer st)).nodup_iff.2
      nodup_syncCandidates
  have hbin : b ∈ syncCandidates localPeer st :=
    (mem_insertionSort _).1 (hsplit ▸ mem_append_left _ hb : b ∈ (buildOrder S t localPeer st).hubs)
  obtain ⟨hmember, hselected, -⟩ := mem_syncCandidates.1 hbin
  cases hdemoted : health.demoted b with
  | true => rfl
  | false =>
    -- a healthy peer before the hub would rank as high as it, and so be the hub itself
    rw [hsplit, pairwise_append] at hsorted
    have hle := hsorted.2.2 b hb h mem_cons_self
    have heq : hubRank S t b = hubRank S t h := hle.antisymm (H.first b ⟨hmember, hselected⟩ hdemoted)
    have hbh : b = h := congrArg (fun r => (ofLex r).2) heq
    rw [hsplit, nodup_append] at hnodup
    exact absurd hbh (hnodup.2.2 b hb h mem_cons_self)

/-- Every other healthy peer selects the hub. -/
theorem IsHub.mem_peers {h : PeerId} (H : IsHub S t st health h) (hne : h ≠ localPeer)
    (hcase : 2 ≤ st.replicationPolicy.maxSyncPeers ∧ health.probesDemoted = false ∨
      st.replicationPolicy.maxSyncPeers = 1 ∧ (∀ p, health.demoted p = false) ∧ health.epoch = 0) :
    h ∈ (selectSyncTargets S t localPeer st health).peers := by
  have hcand : h ∈ syncCandidates localPeer st := mem_syncCandidates.2 ⟨H.scope.1, H.scope.2, hne⟩
  have hcandidates : (buildOrder S t localPeer st).candidates = syncCandidates localPeer st := rfl
  obtain ⟨before, after, hsplit, hbefore⟩ := H.splits hne
  have hpos : st.replicationPolicy.maxSyncPeers ≠ 0 := by
    rcases hcase with ⟨h2, -⟩ | ⟨h1, -⟩ <;> omega
  unfold selectSyncTargets
  dsimp only
  rw [if_neg hpos, hcandidates, if_neg (by rw [List.isEmpty_iff]; exact ne_nil_of_mem hcand)]
  dsimp only
  split
  · exact hcand
  · rw [mem_toList, fillSlots_eq, takeSlots_eq]
    refine mem_fill_of_mem ?_ _
    rw [ringed, takeSlots_eq]
    refine mem_fill_of_mem ?_ _
    unfold preferred
    rcases hcase with ⟨htwo, hprobe⟩ | ⟨hone, hall, hepoch⟩
    · have hprobed : probed (buildOrder S t localPeer st) health = ∅ := by simp [probed, hprobe]
      rw [if_neg (by omega), hprobed, takeSlots_eq, rotate_zero, hsplit]
      refine mem_fill_first ?_ (fun b hb => by simp [hbefore b hb]) (by simp [H.healthy])
      simp only [size_empty, sharedOverlap]
      omega
    · -- nobody is demoted, so the hub is first in the probe order, from which the rotation starts
      have hnil : before = [] := by
        cases before with
        | nil => rfl
        | cons b before =>
          have hno := hbefore b mem_cons_self
          rw [hall b] at hno
          cases hno
      have hprobed : probed (buildOrder S t localPeer st) health = ∅ := by
        simp [probed, PeerHealth.probesDemoted, hepoch]
      have hrotation : health.rotation (buildOrder S t localPeer st).probe.length = 0 := by
        simp [PeerHealth.rotation, hepoch]
      obtain ⟨rest, hrest⟩ := @probeOrder_cons h after (buildOrder S t localPeer st).ring
      have hprobe : (buildOrder S t localPeer st).probe = h :: rest := by
        rw [← hrest, ← nil_append (h :: after), ← hnil, ← hsplit]
        rfl
      rw [if_pos hone, hprobed, hrotation, takeSlots_eq, rotate_zero, hprobe, hone]
      have hfirst : h ∈ fill 1 (fun p => false || !health.demoted p) ∅ ([] ++ h :: rest) :=
        mem_fill_first (by simp) (by simp) (by simp [H.healthy])
      exact hfirst

/-- **The choices of all members connect the healthy peers of the scope**, with a budget of two or more in
every epoch that tries no demoted peer, and with a budget of one while nobody failed. -/
theorem syncGraph_connected (S : PeerScores) (t : TopicId) (st : TopicState) (health : PeerHealth)
    (hcase : 2 ≤ st.replicationPolicy.maxSyncPeers ∧ health.probesDemoted = false ∨
      st.replicationPolicy.maxSyncPeers = 1 ∧ health.attempts = ∅ ∧ health.epoch = 0)
    (p q : PeerId) (hp : InScope st p) (hph : health.demoted p = false) (hq : InScope st q)
      (hqh : health.demoted q = false) :
    (syncGraph S t st health).Reachable p q := by
  have hcase' : 2 ≤ st.replicationPolicy.maxSyncPeers ∧ health.probesDemoted = false ∨
      st.replicationPolicy.maxSyncPeers = 1 ∧ (∀ p, health.demoted p = false) ∧ health.epoch = 0 :=
    hcase.imp_right fun h => ⟨h.1, fun p => by simp [PeerHealth.demoted, h.2.1], h.2.2⟩
  obtain ⟨h, H⟩ := exists_hub (S := S) (t := t) hp hph
  have hreach : ∀ p, InScope st p → health.demoted p = false → (syncGraph S t st health).Reachable p h := by
    intro p hp hph
    by_cases heq : p = h
    · rw [heq]
    · refine SimpleGraph.Adj.reachable ?_
      rw [syncGraph, SimpleGraph.fromRel_adj]
      exact ⟨heq, Or.inl ⟨hp.1, hph, H.mem_peers (Ne.symm heq) hcase'⟩⟩
  exact (hreach p hp hph).trans (hreach q hq hqh).symm

/-! Five members with a budget of two, the second of them demoted. -/

/-- The state of their topic. -/
def fiveState : TopicState :=
  { topicId := IdType.ofNat 1, eventTypeId := "", genesis := IdType.ofNat 2, heads := ∅
    members := ExtTreeSet.ofList ([1, 2, 3, 4, 5].map IdType.ofNat)
    replicationPolicy := ⟨∅, 2⟩, membershipControls := ∅, replicationPolicyControl := none }

/-- Peer 2 failed twice, in an epoch that tries no demoted peer. -/
def fiveHealth : PeerHealth := { attempts := (∅ : BTreeMap PeerId ℕ).insert (IdType.ofNat 2) 2, epoch := 1 }

/-- The peers are scored by their ids. -/
def fiveScores : PeerScores := ⟨fun _ _ p => p.bytes, IdType.ofNat 0⟩

theorem syncGraph_connected_five :
    fiveHealth.demoted (IdType.ofNat 2) = true ∧
      (selectSyncTargets fiveScores (IdType.ofNat 1) (IdType.ofNat 1) fiveState fiveHealth).peers.length <
        (syncCandidates (IdType.ofNat 1) fiveState).length ∧
      (syncGraph fiveScores (IdType.ofNat 1) fiveState fiveHealth).Reachable (IdType.ofNat 1)
        (IdType.ofNat 3) := by
  have hscope : ∀ n ∈ [1, 3], InScope fiveState (IdType.ofNat n) := by
    intro n hn
    refine ⟨?_, fun h => absurd rfl h⟩
    have hmem : ∀ n ∈ [1, 3], (fiveState.members.contains (IdType.ofNat n)) = true := by decide +kernel
    exact mem_iff_contains.2 (hmem n hn)
  refine ⟨by decide +kernel, by decide +kernel, ?_⟩
  exact syncGraph_connected fiveScores (IdType.ofNat 1) fiveState fiveHealth (Or.inl ⟨by decide, by decide⟩) _ _
    (hscope 1 (by simp)) (by decide +kernel) (hscope 3 (by simp)) (by decide +kernel)

end Irokle
