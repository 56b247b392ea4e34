import Irokle.Lib.Outcome
import Irokle.Spec.Status

/-!
# Counting attempts

Updates of a peer's status come late, out of order and more than once. While each carries the identity
of its attempt, the record is a function of what was applied and not of the order: the recent attempts are
the greatest identities, the gauges those of the greatest one, and as long as no identity was forgotten
the counts are those of the set of updates.

* `Counted.step` — one more update, whichever guard it meets;
* `Counted.run` — any sequence of calls, with those for other peers and topics in between;
* `attempts_counted` — what the record holds, and that it does not depend on the order.
-/

namespace Irokle

open Std Outcome Greatest List

variable {us vs : List SyncStatusUpdate} {u : SyncStatusUpdate} {s : SyncPeerStatus} {a : Attempt} {peer : PeerId}
  {t : TopicId}

/-- The identities of some updates. -/
def identities (us : List SyncStatusUpdate) : Finset Attempt := (us.filterMap (·.attempt)).toFinset

/-- The updates have distinct identities. -/
def Distinct (us : List SyncStatusUpdate) : Prop := ∀ u ∈ us, ∀ v ∈ us, u.attempt = v.attempt → u = v

/-- The update sets the pending gauge, the error and the state. -/
def SyncStatusUpdate.Full (u : SyncStatusUpdate) : Prop :=
  u.pendingObligations.isSome ∧ u.lastError.isSome ∧ ∃ state, u.state = .set state

/-- The gauges are those the update sets. -/
structure Gauges (u : SyncStatusUpdate) (s : SyncPeerStatus) : Prop where
  pending : u.pendingObligations = some s.pendingObligations
  error : u.lastError = some s.lastError
  state : u.state = .set s.state

/-- The counts and times are those of the set of updates. -/
structure Totals (us : List SyncStatusUpdate) (s : SyncPeerStatus) : Prop where
  successful : s.successfulAttempts = min (∑ u ∈ us.toFinset, u.successfulAttempts) (u64Size - 1)
  failed : s.failedAttempts = min (∑ u ∈ us.toFinset, u.failedAttempts) (u64Size - 1)
  attemptMs : IsTop {ms | ∃ u ∈ us, u.lastAttemptMs = some ms} s.lastAttemptMs
  successMs : IsTop {ms | ∃ u ∈ us, u.lastSuccessMs = some ms} s.lastSuccessMs

/-- What a status holds once the updates `us` were applied. -/
structure Counted (peer : PeerId) (t : TopicId) (us : List SyncStatusUpdate) (s : SyncPeerStatus) : Prop where
  peerId : s.peerId = peer
  topicId : s.topicId = t
  carried : ∀ u ∈ us, u.attempt.isSome
  recent : s.recentAttempts = greatest maxRecentAttempts (identities us)
  latest : IsTop (identities us : Set Attempt) s.latestAttempt
  gauges : (∀ u ∈ us, u.Full) → ∀ a, s.latestAttempt = some a → ∃ u, us.find? (·.attempt = some a) =
    some u ∧ Gauges u s
  totals : Distinct us → (identities us).card ≤ maxRecentAttempts → Totals us s

theorem mem_identities : a ∈ identities us ↔ ∃ u ∈ us, u.attempt = some a := by
  simp [identities]

theorem identities_snoc (h : u.attempt = some a) : identities (us ++ [u]) = insert a (identities us) := by
  ext b
  simp [identities, h]

theorem toFinset_snoc (us : List SyncStatusUpdate) (u : SyncStatusUpdate) :
    (us ++ [u]).toFinset = insert u us.toFinset := by
  ext v
  simp

theorem Distinct.of_snoc (h : Distinct (us ++ [u])) : Distinct us :=
  fun v hv w hw => h v (mem_append_left _ hv) w (mem_append_left _ hw)

theorem counted_new (peer : PeerId) (t : TopicId) : Counted peer t [] (newPeerStatus peer t) where
  peerId := rfl
  topicId := rfl
  carried := by simp
  recent := by simp [newPeerStatus, identities, greatest]
  latest := ⟨by simp [newPeerStatus], by simp [identities]⟩
  gauges := by rintro - a ⟨⟩
  totals _ _ := ⟨by simp [newPeerStatus], by simp [newPeerStatus], ⟨by simp [newPeerStatus], by simp⟩,
    ⟨by simp [newPeerStatus], by simp⟩⟩

/-- The later of the times is that of the updates. -/
theorem latestMs_top {f : SyncStatusUpdate → Option ℕ} {stored : Option ℕ}
    (h : IsTop {ms | ∃ u ∈ us, f u = some ms} stored) :
    IsTop {ms | ∃ v ∈ us ++ [u], f v = some ms} (latestMs stored (f u)) := by
  cases hu : f u with
  | none =>
    have hset : {ms | ∃ v ∈ us ++ [u], f v = some ms} = {ms | ∃ v ∈ us, f v = some ms} := by
      ext ms
      simp [or_and_right, exists_or, hu]
    rw [hset]
    exact h
  | some ms =>
    have hset : {ms | ∃ v ∈ us ++ [u], f v = some ms} = insert ms {ms | ∃ v ∈ us, f v = some ms} := by
      ext ms'
      simp [or_and_right, exists_or, hu, or_comm, eq_comm]
    rw [hset]
    exact h.max ms

theorem Totals.congr (T : Totals us s) (h : ∀ w, w ∈ us ↔ w ∈ vs) : Totals vs s := by
  have hset : us.toFinset = vs.toFinset := by
    ext w
    rw [mem_toFinset, mem_toFinset, h]
  have hms : ∀ f : SyncStatusUpdate → Option ℕ, {ms | ∃ w ∈ us, f w = some ms} =
      {ms | ∃ w ∈ vs, f w = some ms} := by
    intro f
    simp only [h]
  exact ⟨hset ▸ T.successful, hset ▸ T.failed, hms _ ▸ T.attemptMs, hms _ ▸ T.successMs⟩

/-- One more counted update. -/
theorem Totals.snoc {s' : SyncPeerStatus} (T : Totals us s) (hu : u ∉ us)
    (hs : s'.successfulAttempts = countAdd s.successfulAttempts u.successfulAttempts)
    (hf : s'.failedAttempts = countAdd s.failedAttempts u.failedAttempts)
    (ha : s'.lastAttemptMs = latestMs s.lastAttemptMs u.lastAttemptMs)
    (hm : s'.lastSuccessMs = latestMs s.lastSuccessMs u.lastSuccessMs) : Totals (us ++ [u]) s' := by
  have hu' : u ∉ us.toFinset := fun h => hu (mem_toFinset.1 h)
  refine ⟨?_, ?_, ?_, ?_⟩
  · rw [hs, T.successful, countAdd, toFinset_snoc, Finset.sum_insert hu']
    omega
  · rw [hf, T.failed, countAdd, toFinset_snoc, Finset.sum_insert hu']
    omega
  · rw [ha]
    exact latestMs_top T.attemptMs
  · rw [hm]
    exact latestMs_top T.successMs

/-- An update that repeats a remembered identity changes nothing. -/
theorem applyStatusUpdate_repeat (ha : u.attempt = some a) (h : s.latestAttempt = some a ∨ a ∈ s.recentAttempts) :
    applyStatusUpdate s u = (false, s) := by
  unfold applyStatusUpdate
  dsimp only
  rw [ha]
  exact if_pos h

/-- Any other update of an attempt is recorded, and current when its identity exceeds the latest one. -/
theorem applyStatusUpdate_new (ha : u.attempt = some a) (he : u.expectedAttempts = none)
    (h : ¬(s.latestAttempt = some a ∨ a ∈ s.recentAttempts)) :
    ∃ current : Bool, (current = true ↔ ∀ l, s.latestAttempt = some l → l < a) ∧
      applyStatusUpdate s u = recordUpdate
        { s with
          recentAttempts := Greatest.keep maxRecentAttempts s.recentAttempts a
          latestAttempt := if current then some a else s.latestAttempt } u current := by
  refine ⟨s.latestAttempt.all fun latest => decide (a > latest), ?_, ?_⟩
  · cases s.latestAttempt <;> simp
  · unfold applyStatusUpdate
    dsimp only
    rw [ha, he]
    simp only [if_neg h, Option.all_none, Bool.true_and]

theorem recordUpdate_fst (ha : u.attempt = some a) (current : Bool) : (recordUpdate s u current).1 = true := by
  unfold recordUpdate
  dsimp only
  rw [ha]
  cases current <;> simp

/-- Only a repeat is rejected. -/
theorem applyStatusUpdate_rejected {s' : SyncPeerStatus} (ha : u.attempt = some a)
    (he : u.expectedAttempts = none) (h : applyStatusUpdate s u = (false, s')) :
    (s.latestAttempt = some a ∨ a ∈ s.recentAttempts) ∧ s' = s := by
  by_cases hrep : s.latestAttempt = some a ∨ a ∈ s.recentAttempts
  · rw [applyStatusUpdate_repeat ha hrep] at h
    cases h
    exact ⟨hrep, rfl⟩
  · obtain ⟨current, -, heq⟩ := applyStatusUpdate_new ha he hrep
    have hfst := congrArg Prod.fst (heq.symm.trans h)
    rw [recordUpdate_fst ha] at hfst
    cases hfst

/-- The status `s'` is `s` with the counts and the times of an update. -/
structure Recorded (s : SyncPeerStatus) (u : SyncStatusUpdate) (s' : SyncPeerStatus) : Prop where
  peerId : s'.peerId = s.peerId
  topicId : s'.topicId = s.topicId
  recent : s'.recentAttempts = s.recentAttempts
  latest : s'.latestAttempt = s.latestAttempt
  successful : s'.successfulAttempts = countAdd s.successfulAttempts u.successfulAttempts
  failed : s'.failedAttempts = countAdd s.failedAttempts u.failedAttempts
  attemptMs : s'.lastAttemptMs = latestMs s.lastAttemptMs u.lastAttemptMs
  successMs : s'.lastSuccessMs = latestMs s.lastSuccessMs u.lastSuccessMs

section Record

variable (s : SyncPeerStatus) (u : SyncStatusUpdate) (current : Bool)

/-- What recording an update does beside the gauges: its counts and times are added, the rest stays. -/
theorem recordUpdate_spec : Recorded s u (recordUpdate s u current).2 := by
  cases current <;> exact ⟨rfl, rfl, rfl, rfl, rfl, rfl, rfl, rfl⟩

/-- A current update sets the gauges it names. -/
theorem recordUpdate_gauges (hfull : u.Full) : Gauges u (recordUpdate s u true).2 := by
  obtain ⟨hp, he, state, hstate⟩ := hfull
  obtain ⟨pending, hp⟩ := Option.isSome_iff_exists.1 hp
  obtain ⟨error, he⟩ := Option.isSome_iff_exists.1 he
  refine ⟨?_, ?_, ?_⟩
  · rw [hp]
    change _ = some (u.pendingObligations.getD _)
    rw [hp, Option.getD_some]
  · rw [he]
    change _ = some (u.lastError.getD _)
    rw [he, Option.getD_some]
  · unfold recordUpdate
    simp [hstate]

/-- Any other update leaves them. -/
theorem recordUpdate_kept {v : SyncStatusUpdate} (G : Gauges v s) : Gauges v (recordUpdate s u false).2 :=
  ⟨G.pending, G.error, G.state⟩

end Record

/-- **One more update**, late, repeated or new, keeps the record a function of what was applied. -/
theorem Counted.step (C : Counted peer t us s) (ha : u.attempt = some a) (he : u.expectedAttempts = none) :
    Counted peer t (us ++ [u]) (applyStatusUpdate s u).2 := by
  have hids : identities (us ++ [u]) = insert a (identities us) := identities_snoc ha
  have hcarried : ∀ v ∈ us ++ [u], v.attempt.isSome := by
    intro v hv
    rcases mem_append.1 hv with hv | hv
    · exact C.carried v hv
    · rw [mem_singleton.1 hv, ha]
      rfl
  have hlatest : ∀ l, s.latestAttempt = some l → l ∈ identities us := fun l hl => C.latest.mem l hl
  by_cases hrep : s.latestAttempt = some a ∨ a ∈ s.recentAttempts
  · -- the identity is one of those applied
    rw [applyStatusUpdate_repeat ha hrep]
    have hold : a ∈ identities us := by
      rcases hrep with h | h
      · exact hlatest a h
      · rw [C.recent] at h
        exact (isGreatestOf_greatest _ _).mem a h
    have hsame : identities (us ++ [u]) = identities us := by rw [hids, Finset.insert_eq_of_mem hold]
    refine ⟨C.peerId, C.topicId, hcarried, hsame ▸ C.recent, hsame ▸ C.latest, fun hfull l hl => ?_,
      fun hd hcard => ?_⟩
    · obtain ⟨v, hv, G⟩ := C.gauges (fun v hv => hfull v (mem_append_left _ hv)) l hl
      exact ⟨v, by rw [find?_append, hv]; rfl, G⟩
    · have T := C.totals hd.of_snoc (hsame ▸ hcard)
      obtain ⟨v, hv, hva⟩ := mem_identities.1 hold
      have hvu : v = u := hd v (mem_append_left _ hv) u (by simp) (hva.trans ha.symm)
      refine T.congr fun w => ⟨mem_append_left _, fun hw => ?_⟩
      rcases mem_append.1 hw with hw | hw
      · exact hw
      · rw [mem_singleton.1 hw, ← hvu]
        exact hv
  · obtain ⟨current, hcurrent, heq⟩ := applyStatusUpdate_new ha he hrep
    rw [heq]
    have hnew : a ∉ s.recentAttempts := fun h => hrep (Or.inr h)
    have hraise : IsTop (insert a (identities us : Set Attempt))
        (if current then some a else s.latestAttempt) := by
      cases current with
      | true => exact C.latest.raise (hcurrent.1 rfl)
      | false =>
        have hlow : ¬∀ l, s.latestAttempt = some l → l < a := fun h => Bool.false_ne_true (hcurrent.2 h)
        push Not at hlow
        obtain ⟨l, hl, hle⟩ := hlow
        exact C.latest.keep hl hle
    have R := recordUpdate_spec
      { s with
        recentAttempts := Greatest.keep maxRecentAttempts s.recentAttempts a
        latestAttempt := if current then some a else s.latestAttempt } u current
    refine ⟨R.peerId.trans C.peerId, R.topicId.trans C.topicId, hcarried, ?_, ?_, fun hfull l hl => ?_,
      fun hd hcard => ?_⟩
    · rw [R.recent, hids]
      change Greatest.keep _ s.recentAttempts a = _
      rw [C.recent] at hnew ⊢
      exact keep_eq hnew
    · rw [R.latest, hids, Finset.coe_insert]
      exact hraise
    · rw [R.latest] at hl
      cases current with
      | true =>
        cases hl
        -- no earlier update has an identity as great
        have hnone : us.find? (·.attempt = some a) = none := by
          refine find?_eq_none.2 fun v hv hva => ?_
          obtain ⟨l, hl, hle⟩ := C.latest.le a (mem_identities.2 ⟨v, hv, of_decide_eq_true hva⟩)
          exact absurd (hcurrent.1 rfl l hl) hle.not_gt
        refine ⟨u, ?_, recordUpdate_gauges _ _ (hfull u (by simp))⟩
        rw [find?_append, hnone]
        simp [ha]
      | false =>
        obtain ⟨v, hv, G⟩ := C.gauges (fun v hv => hfull v (mem_append_left _ hv)) l hl
        exact ⟨v, by rw [find?_append, hv]; rfl, recordUpdate_kept _ _ ⟨G.pending, G.error, G.state⟩⟩
    · have hsub : (identities us).card ≤ maxRecentAttempts :=
        (Finset.card_le_card (by rw [hids]; exact Finset.subset_insert _ _)).trans hcard
      -- nothing was forgotten, so the update is a new one
      have hu : u ∉ us := by
        intro hu
        rw [C.recent, mem_greatest_of_card_le hsub] at hnew
        exact hnew (mem_identities.2 ⟨u, hu, ha⟩)
      exact (C.totals hd.of_snoc hsub).snoc hu R.successful R.failed R.attemptMs R.successMs

/-! ## Runs -/

/-- One call, with the updates applied so far for a peer and a topic. -/
def StatusCall.track (peer : PeerId) (t : TopicId) (st : Evidence × List SyncStatusUpdate) (c : StatusCall) :
    Evidence × List SyncStatusUpdate :=
  match st.1.updateSyncStatus c.reserve c.peer c.topicId c.update with
  | .ok (_, v) => (v, if c.topicId = t ∧ c.peer = peer then st.2 ++ [c.update] else st.2)
  | .error _ => st

/-- The evidence after some calls, with the updates they applied for a peer and a topic. -/
def statusRun (v : Evidence) (peer : PeerId) (t : TopicId)
    (calls : List StatusCall) : Evidence × List SyncStatusUpdate :=
  calls.foldl (StatusCall.track peer t) (v, [])

/-- The record of a peer is there once an update was applied, and holds what was applied. -/
structure Tracked (peer : PeerId) (t : TopicId) (st : Evidence × List SyncStatusUpdate) : Prop where
  stored : st.1.syncStatuses[(t, peer)]? = none ↔ st.2 = []
  counted : Counted peer t st.2 (st.1.statusOf peer t)

/-- The calls for a peer and a topic carry an identity and expect no total. -/
def Carries (peer : PeerId) (t : TopicId) (c : StatusCall) : Prop :=
  c.topicId = t → c.peer = peer → c.update.attempt.isSome ∧ c.update.expectedAttempts = none

theorem updateSyncStatus_eq_ok {v v' : Evidence} {reserve : ℕ → Result Unit} {update : SyncStatusUpdate}
    {status : SyncPeerStatus} (h : v.updateSyncStatus reserve peer t update = .ok (status, v')) :
    ∃ changed, applyStatusUpdate (v.statusOf peer t) update = (changed, status) ∧
      v' = if changed then { v with syncStatuses := v.syncStatuses.insert (t, peer) status } else v := by
  unfold Evidence.updateSyncStatus at h
  simp only [bind_eq_ok] at h
  obtain ⟨-, -, h⟩ := h
  split at h
  · rename_i status' heq
    simp only [bind_eq_ok, pure_eq_ok] at h
    obtain ⟨-, -, -, -, h⟩ := h
    cases h
    exact ⟨true, heq, rfl⟩
  · rename_i status' heq
    cases h
    exact ⟨false, heq, rfl⟩

theorem Tracked.step {st : Evidence × List SyncStatusUpdate} (T : Tracked peer t st) {c : StatusCall}
    (hc : Carries peer t c) :
    Tracked peer t (c.track peer t st) := by
  obtain ⟨v, us⟩ := st
  unfold StatusCall.track
  split
  · rename_i status v' h
    obtain ⟨changed, happly, rfl⟩ := updateSyncStatus_eq_ok h
    by_cases hkey : c.topicId = t ∧ c.peer = peer
    · obtain ⟨hattempt, hexpected⟩ := hc hkey.1 hkey.2
      obtain ⟨a, ha⟩ := Option.isSome_iff_exists.1 hattempt
      have C := T.counted.step ha hexpected
      rw [hkey.1, hkey.2] at happly ⊢
      rw [happly] at C
      simp only [and_self, if_true]
      cases changed with
      | true =>
        have hget : (v.syncStatuses.insert (t, peer) status)[(t, peer)]? = some status :=
          ExtTreeMap.getElem?_insert_self
        refine ⟨?_, ?_⟩
        · simp
        · simpa only [Evidence.statusOf, if_true, hget, Option.getD_some] using C
      | false =>
        obtain ⟨hrep, rfl⟩ := applyStatusUpdate_rejected ha hexpected happly
        refine ⟨?_, C⟩
        -- a new record remembers nothing
        have hsome : v.syncStatuses[(t, peer)]? ≠ none := by
          intro hnone
          rw [Evidence.statusOf, hnone, Option.getD_none] at hrep
          simp [newPeerStatus] at hrep
        simpa using hsome
    · rw [if_neg hkey]
      have hother : (if changed then { v with syncStatuses := v.syncStatuses.insert (c.topicId, c.peer) status }
          else v).syncStatuses[(t, peer)]? = v.syncStatuses[(t, peer)]? := by
        split
        · change (v.syncStatuses.insert (c.topicId, c.peer) status)[(t, peer)]? = _
          rw [BTreeMap.getElem?_insert, if_neg]
          exact fun h => hkey ⟨congrArg Prod.fst h, congrArg Prod.snd h⟩
        · rfl
      refine ⟨?_, ?_⟩
      · rw [hother]
        exact T.stored
      · rw [Evidence.statusOf, hother]
        exact T.counted
  · exact T

/-- **What the record holds after any calls**, those for other peers and topics in between. -/
theorem tracked_run {v : Evidence} (hv : v.syncStatuses[(t, peer)]? = none) {calls : List StatusCall}
    (hcalls : ∀ c ∈ calls, Carries peer t c) : Tracked peer t (statusRun v peer t calls) := by
  unfold statusRun
  induction calls using List.reverseRecOn with
  | nil =>
    refine ⟨by simp [hv], ?_⟩
    rw [foldl_nil, Evidence.statusOf, hv]
    exact counted_new peer t
  | append_singleton calls c ih =>
    rw [foldl_append]
    exact (ih fun c' hc' => hcalls c' (mem_append_left _ hc')).step (hcalls c (by simp))

/-- The record is determined by the set of updates, while no identity was forgotten. -/
theorem Counted.unique {s' : SyncPeerStatus} (C : Counted peer t us s) (C' : Counted peer t vs s')
    (h : ∀ w, w ∈ us ↔ w ∈ vs) (hne : us ≠ []) (hfull : ∀ w ∈ us, w.Full) (hd : Distinct us)
    (hcard : (identities us).card ≤ maxRecentAttempts) :
    s = s' := by
  have hids : identities us = identities vs := by
    ext a
    simp only [mem_identities, h]
  have hd' : Distinct vs := fun v hv w hw => hd v ((h v).2 hv) w ((h w).2 hw)
  have T := C.totals hd hcard
  have T' := (C'.totals hd' (hids ▸ hcard)).congr fun w => (h w).symm
  have hrecent : s.recentAttempts = s'.recentAttempts := by rw [C.recent, C'.recent, hids]
  have hlatest : s.latestAttempt = s'.latestAttempt := C.latest.unique (hids ▸ C'.latest)
  have hattempt := T.attemptMs.unique T'.attemptMs
  have hsuccess := T.successMs.unique T'.successMs
  -- both records have the gauges of the update with the greatest identity
  obtain ⟨u, hu⟩ := exists_mem_of_ne_nil us hne
  obtain ⟨a, ha⟩ := Option.isSome_iff_exists.1 (C.carried u hu)
  obtain ⟨l, hl, -⟩ := C.latest.le a (mem_identities.2 ⟨u, hu, ha⟩)
  obtain ⟨v, hv, G⟩ := C.gauges hfull l hl
  obtain ⟨w, hw, G'⟩ := C'.gauges (fun w hw => hfull w ((h w).2 hw)) l (hlatest ▸ hl)
  have hva : v.attempt = some l := by simpa using find?_some hv
  have hwa : w.attempt = some l := by simpa using find?_some hw
  have hvw : v = w :=
    hd v (mem_of_find?_eq_some hv) w ((h w).2 (mem_of_find?_eq_some hw)) (hva.trans hwa.symm)
  subst hvw
  have hpending := Option.some.inj (G.pending.symm.trans G'.pending)
  have herror := Option.some.inj (G.error.symm.trans G'.error)
  have hstate := SyncStateUpdate.set.inj (G.state.symm.trans G'.state)
  cases s
  cases s'
  simp only [SyncPeerStatus.mk.injEq]
  exact ⟨C.peerId.trans C'.peerId.symm, C.topicId.trans C'.topicId.symm, hstate, hpending,
    T.failed.trans T'.failed.symm,
    T.successful.trans T'.successful.symm, hattempt, hsuccess, herror, hlatest, hrecent⟩

/-- **Attempts are counted once while they are remembered.** From a store without a record of the peer, after any
calls whose updates for the peer carry an identity and expect no total, and any calls for others: the recent
attempts are the 32 greatest identities applied, in order; a further update with one of them changes nothing; and
when the updates set all gauges, the gauges are those of the greatest identity, as it was first applied. Two
sequences that apply the same set of at most 32 such updates, with distinct identities, in any order and
repetition, leave the same record. -/
theorem attempts_counted (peer : PeerId) (t : TopicId) (v : Evidence) (hv : v.syncStatuses[(t, peer)]? = none) :
    (∀ calls, (∀ c ∈ calls, Carries peer t c) →
      let run := statusRun v peer t calls
      let status := run.1.statusOf peer t
      status.recentAttempts = greatest maxRecentAttempts (identities run.2) ∧
      (∀ a ∈ status.recentAttempts, ∀ u reserve, u.attempt = some a →
        StatusCall.run run.1 ⟨peer, t, u, reserve⟩ = run.1) ∧
      ((∀ u ∈ run.2, u.Full) → ∀ a, IsGreatest (identities run.2 : Set Attempt) a →
        ∃ u, run.2.find? (·.attempt = some a) = some u ∧ Gauges u status)) ∧
    ∀ calls calls', (∀ c ∈ calls, Carries peer t c) → (∀ c ∈ calls', Carries peer t c) →
      (∀ u, u ∈ (statusRun v peer t calls).2 ↔ u ∈ (statusRun v peer t calls').2) →
      (∀ u ∈ (statusRun v peer t calls).2, u.Full) → Distinct (statusRun v peer t calls).2 →
      (identities (statusRun v peer t calls).2).card ≤ maxRecentAttempts →
      (statusRun v peer t calls).1.syncStatuses[(t, peer)]? =
        (statusRun v peer t calls').1.syncStatuses[(t, peer)]? := by
  refine ⟨fun calls hcalls => ?_, fun calls calls' hcalls hcalls' hset hfull hd hcard => ?_⟩
  · have R := tracked_run hv hcalls
    refine ⟨R.counted.recent, fun a ha u reserve hu => ?_, fun hfull a ha => ?_⟩
    · have happly := applyStatusUpdate_repeat hu (Or.inr ha)
      unfold StatusCall.run
      split
      · rename_i status v' h
        obtain ⟨changed, hchanged, rfl⟩ := updateSyncStatus_eq_ok h
        cases hchanged.symm.trans happly
        rfl
      · rfl
    · exact R.counted.gauges hfull a (R.counted.latest.isGreatest.2 ha)
  · have R := tracked_run hv hcalls
    have R' := tracked_run hv hcalls'
    generalize statusRun v peer t calls = st at *
    generalize statusRun v peer t calls' = st' at *
    cases h : st.1.syncStatuses[(t, peer)]? with
    | none =>
      have hnil := R.stored.1 h
      refine (R'.stored.2 (eq_nil_iff_forall_not_mem.2 fun u hu => ?_)).symm
      rw [← hset, hnil] at hu
      cases hu
    | some s =>
      have hne : st.2 ≠ [] := fun hnil => by rw [R.stored.2 hnil] at h; cases h
      have hne' : st'.1.syncStatuses[(t, peer)]? ≠ none := by
        intro hnone
        refine hne (eq_nil_iff_forall_not_mem.2 fun u hu => ?_)
        rw [hset, R'.stored.1 hnone] at hu
        cases hu
      obtain ⟨s', h'⟩ := Option.ne_none_iff_exists'.1 hne'
      have C := R.counted
      have C' := R'.counted
      rw [Evidence.statusOf, h, Option.getD_some] at C
      rw [Evidence.statusOf, h', Option.getD_some] at C'
      rw [h', C.unique C' hset hne hfull hd hcard]

/-- A successful attempt, and a failed one. -/
def attemptUpdate (n : ℕ) : SyncStatusUpdate where
  successfulAttempts := n % 2
  failedAttempts := (n + 1) % 2
  state := .set (if n % 2 = 1 then .healthy else .failed)
  pendingObligations := some n
  lastAttemptMs := some (10 * n)
  lastError := some none
  attempt := some (toLex (1, n))

/-- The statuses after some attempts with peer 1, and what was applied. -/
def attemptRun (ns : List ℕ) : Evidence × List SyncStatusUpdate :=
  statusRun {} (IdType.ofNat 1) (IdType.ofNat 1)
    (ns.map fun n => ⟨IdType.ofNat 1, IdType.ofNat 1, attemptUpdate n, fun _ => .ok ()⟩)

/-- Three attempts in order, and late with a repeat. -/
theorem attempts_counted_late :
    (attemptRun [1, 2, 3]).1.syncStatuses[((IdType.ofNat 1 : TopicId), (IdType.ofNat 1 : PeerId))]? =
      (attemptRun [3, 1, 3, 2]).1.syncStatuses[((IdType.ofNat 1 : TopicId), (IdType.ofNat 1 : PeerId))]? := by
  have happlied : (attemptRun [1, 2, 3]).2 = [attemptUpdate 1, attemptUpdate 2, attemptUpdate 3] := by
    decide +kernel
  have happlied' : (attemptRun [3, 1, 3, 2]).2 =
      [attemptUpdate 3, attemptUpdate 1, attemptUpdate 3, attemptUpdate 2] := by
    decide +kernel
  have hcarries : ∀ ns : List ℕ, ∀ c ∈ ns.map fun n =>
      (⟨IdType.ofNat 1, IdType.ofNat 1, attemptUpdate n, fun _ => .ok ()⟩ : StatusCall), Carries (IdType.ofNat 1)
        (IdType.ofNat 1) c := by
    intro ns c hc
    obtain ⟨n, -, rfl⟩ := mem_map.1 hc
    exact fun _ _ => ⟨rfl, rfl⟩
  refine (attempts_counted (IdType.ofNat 1) (IdType.ofNat 1) {} (by simp)).2 _ _ (hcarries [1, 2, 3])
    (hcarries [3, 1, 3, 2]) ?_ ?_ ?_ ?_
  · change ∀ u, u ∈ (attemptRun [1, 2, 3]).2 ↔ u ∈ (attemptRun [3, 1, 3, 2]).2
    intro u
    rw [happlied, happlied']
    simp only [mem_cons, not_mem_nil, or_false]
    tauto
  · change ∀ u ∈ (attemptRun [1, 2, 3]).2, u.Full
    rw [happlied]
    simp [SyncStatusUpdate.Full, attemptUpdate]
  · change Distinct (attemptRun [1, 2, 3]).2
    rw [happlied]
    unfold Distinct
    decide +kernel
  · change (identities (attemptRun [1, 2, 3]).2).card ≤ maxRecentAttempts
    rw [happlied]
    decide +kernel

end Irokle
