import Irokle.Lib.Reach
import Irokle.Spec.Memory

/-!
# The pending indexes

Six maps describe the buffered ops. `PendingOK` says that the other five follow from the records:
who waits on whom, who is ready, what belongs to a topic, and what each scope is charged.

* `PendingOK.remove` — removing an op never fails, and keeps the indexes in step;
* `PendingOK.settle` — so does telling the waiters that an op was admitted;
* `PendingOK.store` — so does buffering an op that passed the quota check;
* `PendingIndex.mem_waiterClosure` — what a rejection or an expiry takes along waits on it;
* `BufferOK` — no buffered op, and nothing it waits for, is stored.
-/

namespace Irokle

open Std Outcome ExtTreeMap ExtTreeSet

/-- What the records that satisfy `f` are charged. -/
def usageBy (f : PendingRecord → Bool) (records : BTreeMap OpId PendingRecord) : PendingUsage :=
  let charged := (records.toList.map (·.2)).filter f
  ⟨charged.length, (charged.map (·.charge)).sum⟩

/-- The usage lies within a quota. -/
def PendingUsage.Within (u : PendingUsage) (ops bytes : ℕ) : Prop := u.ops ≤ ops ∧ u.bytes ≤ bytes

/-- The indexes over the buffered ops describe the records. -/
structure PendingOK (p : PendingIndex) : Prop where
  opOf : ∀ (id : OpId) rec, p.pendingRecords[id]? = some rec →
    ∃ op, p.pendingOps[id]? = some op ∧ op.id = id ∧ op.body.topicId = rec.topicId
  recordOf : ∀ id : OpId, p.pendingRecords[id]? = none → p.pendingOps[id]? = none
  waiters : ∀ d id, id ∈ SetMap.get p.pendingWaiters d ↔ ∃ rec, p.pendingRecords[id]? = some rec ∧ d ∈ rec.missing
  waiterKeys : SetMap.NoEmpty p.pendingWaiters
  ready : ∀ id, id ∈ p.pendingReady ↔ ∃ rec, p.pendingRecords[id]? = some rec ∧ rec.missing = ∅
  byTopic : ∀ t id, id ∈ SetMap.get p.pendingByTopic t ↔ ∃ rec, p.pendingRecords[id]? = some rec ∧ rec.topicId = t
  topicKeys : SetMap.NoEmpty p.pendingByTopic
  total : p.pendingUsage = usageBy (fun _ => true) p.pendingRecords
  source : ∀ s, usageOf p.sourceUsage s = usageBy (fun rec => decide (rec.source = s)) p.pendingRecords
  topic : ∀ t, usageOf p.topicUsage t = usageBy (fun rec => decide (rec.topicId = t)) p.pendingRecords
  usageKeys : (∀ s : PeerId, p.sourceUsage[s]? ≠ some ⟨0, 0⟩) ∧ ∀ t : TopicId, p.topicUsage[t]? ≠ some ⟨0, 0⟩
  totalQuota : p.pendingUsage.Within maxPendingOpsTotal maxPendingBytesTotal
  sourceQuota : ∀ s, (usageOf p.sourceUsage s).Within maxPendingOpsPerSource maxPendingBytesPerSource
  topicQuota : ∀ t, (usageOf p.topicUsage t).Within maxPendingOpsPerTopic maxPendingBytesPerTopic

variable {p p' : PendingIndex} {id : OpId} {rec : PendingRecord} {f : PendingRecord → Bool}
  {m : BTreeMap OpId PendingRecord} {u : PendingUsage} {ops bytes c : ℕ}

theorem pendingOK_empty : PendingOK {} where
  opOf := by simp
  recordOf := by simp
  waiters := by simp
  waiterKeys := SetMap.NoEmpty.empty
  ready := by simp
  byTopic := by simp
  topicKeys := SetMap.NoEmpty.empty
  total := rfl
  source _ := rfl
  topic _ := rfl
  usageKeys := by simp
  totalQuota := ⟨Nat.zero_le _, Nat.zero_le _⟩
  sourceQuota _ := ⟨Nat.zero_le _, Nat.zero_le _⟩
  topicQuota _ := ⟨Nat.zero_le _, Nat.zero_le _⟩

/-! ## Usage -/

@[simp] theorem PendingUsage.refunded_charged : (u.charged c).refunded c = .ok u := by
  simp [PendingUsage.refunded, PendingUsage.charged]

theorem PendingUsage.Within.of_charged (h : (u.charged c).Within ops bytes) : u.Within ops bytes := by
  unfold PendingUsage.Within PendingUsage.charged at *
  dsimp only at h
  omega

/-- One record counts once. -/
theorem usageBy_erase (h : m[id]? = some rec) : usageBy f m =
    if f rec then (usageBy f (m.erase id)).charged rec.charge else usageBy f (m.erase id) := by
  have hperm := ((toList_perm_erase h).map (·.2)).filter f
  rw [List.map_cons, List.filter_cons] at hperm
  unfold usageBy
  dsimp only
  rw [hperm.length_eq, (hperm.map (·.charge)).sum_eq]
  split
  · simp [PendingUsage.charged, Nat.add_comm]
  · rfl

theorem usageBy_insert_new (h : m[id]? = none) : usageBy f (m.insert id rec) =
    if f rec then (usageBy f m).charged rec.charge else usageBy f m := by
  have herase : (m.insert id rec).erase id = m := by
    refine ext_getElem? fun k : OpId => ?_
    rw [getElem?_erase, getElem?_insert]
    split
    · rename_i hk
      rw [← Std.compare_eq_iff_eq.1 hk, h]
    · rfl
  have hself : (m.insert id rec)[id]? = some rec := by simp
  rw [usageBy_erase hself, herase]

/-- A record whose charge and scope stay counts as before. -/
theorem usageBy_insert_same {rec' : PendingRecord} (h : m[id]? = some rec) (hf : f rec' = f rec)
    (hc : rec'.charge = rec.charge) : usageBy f (m.insert id rec') = usageBy f m := by
  have herase : (m.insert id rec').erase id = m.erase id := by
    refine ext_getElem? fun k : OpId => ?_
    simp only [getElem?_erase, getElem?_insert]
    split <;> rfl
  have hself : (m.insert id rec')[id]? = some rec' := by simp
  rw [usageBy_erase h, usageBy_erase hself, herase, hf, hc]

section Scope

variable {κ : Type} [Ord κ] [TransOrd κ] [LawfulEqOrd κ] [DecidableEq κ]
  {usage : BTreeMap κ PendingUsage} {k k' : κ}

theorem usageOf_putUsage : usageOf (putUsage usage k u) k' = if k = k' then u else usageOf usage k' := by
  unfold putUsage usageOf
  split
  · rename_i h0
    rw [getElem?_erase]
    by_cases h : k = k' <;> simp [h, h0]
  · rw [getElem?_insert]
    by_cases h : k = k' <;> simp [h]

theorem usageOf_insert : usageOf (usage.insert k u) k' = if k = k' then u else usageOf usage k' := by
  unfold usageOf
  rw [getElem?_insert]
  by_cases h : k = k' <;> simp [h]

omit [DecidableEq κ] in
theorem putUsage_ne_zero (h : ∀ k : κ, usage[k]? ≠ some ⟨0, 0⟩) : (putUsage usage k u)[k']? ≠ some ⟨0, 0⟩ := by
  unfold putUsage
  split
  · exact fun hk => h k' (BTreeMap.of_getElem?_erase hk).2
  · rename_i hu
    exact fun hk => (BTreeMap.of_getElem?_insert hk).elim (fun hk => hu hk.2) fun hk => h k' hk.2

omit [DecidableEq κ] in
theorem insert_charged_ne_zero (h : ∀ k : κ, usage[k]? ≠ some ⟨0, 0⟩) :
    (usage.insert k (u.charged c))[k']? ≠ some ⟨0, 0⟩ := fun hk =>
  (BTreeMap.of_getElem?_insert hk).elim (fun hk => by simp [PendingUsage.charged] at hk) fun hk => h k' hk.2

end Scope

/-! ## Removing buffered ops -/

/-- `p'` is `p` without the buffered ops `ids`. -/
structure Removed (p : PendingIndex) (ids : List OpId) (p' : PendingIndex) : Prop where
  records : ∀ k : OpId, p'.pendingRecords[k]? = if k ∈ ids then none else p.pendingRecords[k]?
  ops : ∀ k : OpId, p'.pendingOps[k]? = if k ∈ ids then none else p.pendingOps[k]?
  rejected : p'.rejected = p.rejected
  since : p'.pendingSince = p.pendingSince

theorem Removed.nil : Removed p [] p := ⟨by simp, by simp, rfl, rfl⟩

theorem Removed.trans {ids ids' : List OpId} {p'' : PendingIndex} (h : Removed p ids p')
    (h' : Removed p' ids' p'') :
    Removed p (ids ++ ids') p'' where
  records k := by
    rw [h'.records, h.records]
    by_cases h1 : k ∈ ids <;> by_cases h2 : k ∈ ids' <;> simp [h1, h2]
  ops k := by
    rw [h'.ops, h.ops]
    by_cases h1 : k ∈ ids <;> by_cases h2 : k ∈ ids' <;> simp [h1, h2]
  rejected := h'.rejected.trans h.rejected
  since := h'.since.trans h.since

/-- A record of a map without `id`. -/
theorem getElem?_erase_some {m : BTreeMap OpId PendingRecord} {k : OpId} :
    (m.erase id)[k]? = some rec ↔ id ≠ k ∧ m[k]? = some rec := by
  rw [getElem?_erase]
  by_cases h : id = k <;> simp [h]

/-- The refund of one scope. -/
theorem refund_scope {κ : Type} [Ord κ] [TransOrd κ] [LawfulEqOrd κ] [DecidableEq κ]
    {usage : BTreeMap κ PendingUsage} (scope : PendingRecord → κ) (hrec : m[id]? = some rec)
    (husage : ∀ k, usageOf usage k = usageBy (fun rec => decide (scope rec = k)) m) :
    ∃ u, (usageOf usage (scope rec)).refunded rec.charge = .ok u ∧
      (∀ k, usageOf (putUsage usage (scope rec) u) k = usageBy (fun rec => decide (scope rec = k)) (m.erase id)) ∧
      ∀ {ops bytes}, (∀ k, (usageOf usage k).Within ops bytes) →
        ∀ k, (usageOf (putUsage usage (scope rec) u) k).Within ops bytes := by
  have hsplit := fun k => (husage k).trans (usageBy_erase hrec)
  have hself := hsplit (scope rec)
  rw [decide_eq_true rfl, if_pos rfl] at hself
  refine ⟨_, by rw [hself, PendingUsage.refunded_charged], fun k => ?_, fun hq k => ?_⟩
  · rw [usageOf_putUsage]
    split
    · rename_i hk
      rw [hk]
    · rename_i hk
      rw [hsplit, if_neg (by simpa using hk)]
  · rw [usageOf_putUsage]
    split
    · exact (hself ▸ hq (scope rec)).of_charged
    · exact hq k

/-- **Removing an op never fails and keeps the indexes in step.** -/
theorem PendingOK.remove (h : PendingOK p) (id : OpId) :
    ∃ p', p.removePendingLocked id = .ok p' ∧ PendingOK p' ∧ Removed p [id] p' := by
  unfold PendingIndex.removePendingLocked
  cases hrec : p.pendingRecords[id]? with
  | none =>
    refine ⟨p, rfl, h, fun k => ?_, fun k => ?_, rfl, rfl⟩
    · by_cases hk : k = id <;> simp [hk, hrec]
    · by_cases hk : k = id <;> simp [hk, h.recordOf id hrec]
  | some rec =>
    have htotal := h.total.trans (usageBy_erase hrec)
    rw [if_pos rfl] at htotal
    obtain ⟨us, hus, hsource, hsq⟩ := refund_scope PendingRecord.source hrec h.source
    obtain ⟨ut, hut, htopic, htq⟩ := refund_scope PendingRecord.topicId hrec h.topic
    refine ⟨_, by simp only [htotal, PendingUsage.refunded_charged, hus, hut, ok_bind]; rfl, ?_, ?_⟩
    · refine ⟨?_, ?_, ?_, h.waiterKeys.foldl_erase, ?_, ?_, h.topicKeys.erase, rfl, hsource, htopic, ?_, ?_,
        hsq h.sourceQuota, htq h.topicQuota⟩
      · intro k rec' hk
        obtain ⟨hne, hk⟩ := getElem?_erase_some.1 hk
        obtain ⟨op, hop, hid⟩ := h.opOf k rec' hk
        exact ⟨op, by simp [getElem?_erase, hne, hop], hid⟩
      · intro k hk
        simp only [getElem?_erase, Std.compare_eq_iff_eq] at hk ⊢
        split
        · rfl
        · rename_i hne
          rw [if_neg hne] at hk
          exact h.recordOf k hk
      · intro d k
        simp only [PendingIndex.unwaitAll, SetMap.mem_get_foldl_erase, h.waiters, getElem?_erase_some, mem_toList]
        constructor
        · rintro ⟨⟨rec', hk, hd⟩, hno⟩
          refine ⟨rec', ⟨?_, hk⟩, hd⟩
          rintro rfl
          rw [hrec] at hk
          cases hk
          exact hno ⟨rfl, hd⟩
        · rintro ⟨rec', ⟨hne, hk⟩, hd⟩
          exact ⟨⟨rec', hk, hd⟩, fun hno => hne hno.1⟩
      · intro k
        simp only [ExtTreeSet.mem_erase, h.ready, getElem?_erase_some, Std.compare_eq_iff_eq, ne_eq]
        constructor
        · rintro ⟨hne, rec', hk, h0⟩
          exact ⟨rec', ⟨hne, hk⟩, h0⟩
        · rintro ⟨rec', ⟨hne, hk⟩, h0⟩
          exact ⟨hne, rec', hk, h0⟩
      · intro t k
        simp only [SetMap.mem_get_erase, h.byTopic, getElem?_erase_some]
        constructor
        · rintro ⟨⟨rec', hk, ht⟩, hno⟩
          refine ⟨rec', ⟨?_, hk⟩, ht⟩
          rintro rfl
          rw [hrec] at hk
          cases hk
          exact hno ⟨ht, rfl⟩
        · rintro ⟨rec', ⟨hne, hk⟩, ht⟩
          exact ⟨⟨rec', hk, ht⟩, fun hno => hne hno.2⟩
      · exact ⟨fun _ => putUsage_ne_zero h.usageKeys.1, fun _ => putUsage_ne_zero h.usageKeys.2⟩
      · exact (htotal ▸ h.totalQuota).of_charged
    · refine ⟨fun k => ?_, fun k => ?_, rfl, rfl⟩ <;>
        simp only [getElem?_erase, Std.compare_eq_iff_eq, List.mem_singleton, eq_comm (a := id)]

/-- Removing several ops never fails either. -/
theorem PendingOK.removeAll (h : PendingOK p) (ids : List OpId) :
    ∃ p', p.removeAll ids = (.ok (), p') ∧ PendingOK p' ∧ Removed p ids p' := by
  induction ids generalizing p with
  | nil => exact ⟨p, rfl, h, .nil⟩
  | cons id ids ih =>
    obtain ⟨p₁, h₁, ok₁, R₁⟩ := h.remove id
    obtain ⟨p₂, h₂, ok₂, R₂⟩ := ih ok₁
    refine ⟨p₂, ?_, ok₂, R₁.trans R₂⟩
    simp only [PendingIndex.removeAll, h₁, h₂]

/-! ## Settling the waiters of an admitted op -/

/-- The record once `a` is no longer missed. -/
def PendingRecord.settled (a : OpId) (rec : PendingRecord) : PendingRecord :=
  { rec with missing := rec.missing.erase a }

/-- `p'` is `p` once the waiters `ids` no longer miss `a`. -/
structure Settled (a : OpId) (p : PendingIndex) (ids : List OpId) (p' : PendingIndex) : Prop where
  records : ∀ k : OpId, p'.pendingRecords[k]? =
    if k ∈ ids then p.pendingRecords[k]?.map (·.settled a) else p.pendingRecords[k]?
  ready : ∀ k, k ∈ p'.pendingReady ↔ k ∈ p.pendingReady ∨
    k ∈ ids ∧ ∃ rec, p.pendingRecords[k]? = some rec ∧ rec.missing.erase a = ∅
  rest : p' = { p with pendingRecords := p'.pendingRecords, pendingReady := p'.pendingReady }
  usage : ∀ f : PendingRecord → Bool, (∀ rec, f (rec.settled a) = f rec) →
    usageBy f p'.pendingRecords = usageBy f p.pendingRecords

theorem Settled.step {a : OpId} {ids : List OpId} (h : Settled a p ids p') (hid : id ∉ ids) :
    Settled a p (ids ++ [id]) (p'.settleWaiter a id) := by
  have hread : p'.pendingRecords[id]? = p.pendingRecords[id]? := by rw [h.records, if_neg hid]
  unfold PendingIndex.settleWaiter
  cases hrec : p'.pendingRecords[id]? with
  | none =>
    rw [hrec] at hread
    refine ⟨fun k => ?_, fun k => ?_, h.rest, h.usage⟩
    · rw [h.records]
      by_cases hk : k = id
      · subst hk
        simp [hid, ← hread]
      · simp [hk]
    · rw [h.ready]
      refine or_congr_right ⟨fun ⟨hk, hrec⟩ => ⟨List.mem_append_left _ hk, hrec⟩, ?_⟩
      rintro ⟨hk, rec, hrec, h0⟩
      rcases List.mem_append.1 hk with hk | hk
      · exact ⟨hk, rec, hrec, h0⟩
      · rw [List.mem_singleton.1 hk, ← hread] at hrec
        cases hrec
  | some rec =>
    rw [hrec] at hread
    refine ⟨fun k => ?_, fun k => ?_, ?_, fun f hf => ?_⟩
    · simp only [getElem?_insert, Std.compare_eq_iff_eq]
      by_cases hk : id = k
      · subst hk
        simp [← hread, PendingRecord.settled]
      · simp [hk, Ne.symm hk, h.records]
    · have hins : k ∈ (if (rec.missing.erase a).isEmpty = true then p'.pendingReady.insert id
        else p'.pendingReady) ↔
          k ∈ p'.pendingReady ∨ id = k ∧ rec.missing.erase a = ∅ := by
        split
        · rename_i h0
          simp [ExtTreeSet.isEmpty_iff.1 h0, or_comm]
        · rename_i h0
          have hne : rec.missing.erase a ≠ ∅ := fun h => h0 (ExtTreeSet.isEmpty_iff.2 h)
          simp [hne]
      simp only [hins, h.ready, List.mem_append, List.mem_singleton]
      constructor
      · rintro ((hk | ⟨hk, hr⟩) | ⟨rfl, h0⟩)
        · exact Or.inl hk
        · exact Or.inr ⟨Or.inl hk, hr⟩
        · exact Or.inr ⟨Or.inr rfl, rec, hread.symm, h0⟩
      · rintro (hk | ⟨hk | rfl, rec', hr, h0⟩)
        · exact Or.inl (Or.inl hk)
        · exact Or.inl (Or.inr ⟨hk, rec', hr, h0⟩)
        · rw [← hread] at hr
          cases hr
          exact Or.inr ⟨rfl, h0⟩
    · rw [h.rest]
    · exact (usageBy_insert_same hrec (hf rec) rfl).trans (h.usage f hf)

theorem Settled.foldl {a : OpId} {ids done : List OpId} (h : Settled a p done p') (hnd : (done ++ ids).Nodup) :
    Settled a p (done ++ ids) (ids.foldl (PendingIndex.settleWaiter a) p') := by
  induction ids generalizing done p' with
  | nil => simpa using h
  | cons id ids ih =>
    have hid : id ∉ done := fun hmem => (List.nodup_append.1 hnd).2.2 id hmem id (by simp) rfl
    rw [List.append_cons] at hnd ⊢
    exact ih (h.step hid) hnd

/-- **Telling the waiters keeps the indexes in step**: every record misses `a` no more. -/
theorem PendingOK.settle (h : PendingOK p) (a : OpId) :
    PendingOK (p.settleWaitersLocked a) ∧
      (∀ k : OpId, (p.settleWaitersLocked a).pendingRecords[k]? = p.pendingRecords[k]?.map (·.settled a)) ∧
      (p.settleWaitersLocked a).pendingOps = p.pendingOps ∧ (p.settleWaitersLocked a).rejected = p.rejected ∧
      (p.settleWaitersLocked a).pendingSince = p.pendingSince := by
  set ids := (SetMap.get p.pendingWaiters a).toList with hids
  set q : PendingIndex := { p with pendingWaiters := p.pendingWaiters.erase a } with hq
  have S : Settled a q ids (p.settleWaitersLocked a) := by
    have hstart : Settled a q [] q := ⟨by simp, by simp, rfl, fun _ _ => rfl⟩
    exact hstart.foldl (BTreeSet.nodup_toList _)
  have hwait : ∀ k, k ∈ ids ↔ ∃ rec, p.pendingRecords[k]? = some rec ∧ a ∈ rec.missing := by
    intro k
    rw [hids, mem_toList, h.waiters]
  have hrec : ∀ k : OpId, (p.settleWaitersLocked a).pendingRecords[k]? = p.pendingRecords[k]?.map
      (·.settled a) := by
    intro k
    refine (S.records k).trans ?_
    split
    · rfl
    · rename_i hk
      change p.pendingRecords[k]? = _
      cases hr : p.pendingRecords[k]? with
      | none => rfl
      | some rec =>
        have hnot : a ∉ rec.missing := fun hmem => hk ((hwait k).2 ⟨rec, hr, hmem⟩)
        have herase : rec.missing.erase a = rec.missing := by
          refine ext_mem fun d => ?_
          rw [ExtTreeSet.mem_erase]
          refine ⟨fun hd => hd.2, fun hd => ⟨fun hc => hnot ?_, hd⟩⟩
          rwa [Std.compare_eq_iff_eq.1 hc]
        simp [PendingRecord.settled, herase]
  have hready := S.ready
  have husage := S.usage
  -- nothing but the records and the ready ops changes
  obtain ⟨records, ready, hp⟩ : ∃ records ready, p.settleWaitersLocked a =
    { q with pendingRecords := records, pendingReady := ready } :=
    ⟨_, _, S.rest⟩
  rw [hp] at hrec hready husage ⊢
  have hsome : ∀ {k : OpId} {rec'}, records[k]? = some rec' ↔ ∃ rec, p.pendingRecords[k]? = some rec ∧
      rec.settled a = rec' := by
    intro k rec'
    rw [hrec, Option.map_eq_some_iff]
  refine ⟨⟨?_, ?_, ?_, h.waiterKeys.erase_key, ?_, ?_, h.topicKeys, h.total.trans (husage _ fun _ => rfl).symm,
    fun s => (h.source s).trans (husage _ fun _ => rfl).symm, fun t => (h.topic t).trans
    (husage _ fun _ => rfl).symm, h.usageKeys, h.totalQuota, h.sourceQuota, h.topicQuota⟩, hrec, rfl, rfl, rfl⟩
  · intro k rec' hk
    obtain ⟨rec, hr, rfl⟩ := hsome.1 hk
    exact h.opOf k rec hr
  · intro k hk
    rw [hrec, Option.map_eq_none_iff] at hk
    exact h.recordOf k hk
  · intro d k
    simp only [hq, SetMap.get_erase_key]
    by_cases hd : a = d
    · subst hd
      simp only [if_true, ExtTreeSet.not_mem_empty, false_iff, not_exists, not_and]
      intro rec' hk
      obtain ⟨rec, -, rfl⟩ := hsome.1 hk
      simp [PendingRecord.settled]
    · rw [if_neg hd, h.waiters]
      constructor
      · rintro ⟨rec, hr, hmem⟩
        exact ⟨rec.settled a, hsome.2 ⟨rec, hr, rfl⟩, by simp [PendingRecord.settled, hd, hmem]⟩
      · rintro ⟨rec', hk, hmem⟩
        obtain ⟨rec, hr, rfl⟩ := hsome.1 hk
        exact ⟨rec, hr, (ExtTreeSet.mem_erase.1 hmem).2⟩
  · intro k
    rw [hready]
    change k ∈ p.pendingReady ∨ k ∈ ids ∧ (∃ rec, p.pendingRecords[k]? = some rec ∧ _) ↔ _
    rw [h.ready]
    constructor
    · rintro (⟨rec, hr, h0⟩ | ⟨-, rec, hr, h0⟩)
      · exact ⟨rec.settled a, hsome.2 ⟨rec, hr, rfl⟩, by simp [PendingRecord.settled, h0]⟩
      · exact ⟨rec.settled a, hsome.2 ⟨rec, hr, rfl⟩, h0⟩
    · rintro ⟨rec', hk, h0⟩
      obtain ⟨rec, hr, rfl⟩ := hsome.1 hk
      by_cases hmem : a ∈ rec.missing
      · exact Or.inr ⟨(hwait k).2 ⟨rec, hr, hmem⟩, rec, hr, h0⟩
      · refine Or.inl ⟨rec, hr, ExtTreeSet.eq_empty_iff_forall_not_mem.2 fun d hd => ?_⟩
        have hd' : d ∈ rec.missing.erase a := ExtTreeSet.mem_erase.2
          ⟨fun hc => hmem (by rwa [Std.compare_eq_iff_eq.1 hc]), hd⟩
        exact BTreeSet.ne_empty_of_mem hd' h0
  · intro t k
    rw [h.byTopic]
    constructor
    · rintro ⟨rec, hr, ht⟩
      exact ⟨rec.settled a, hsome.2 ⟨rec, hr, rfl⟩, ht⟩
    · rintro ⟨rec', hk, ht⟩
      obtain ⟨rec, hr, rfl⟩ := hsome.1 hk
      exact ⟨rec, hr, ht⟩

/-! ## Buffering -/

variable {source : PeerId} {op : Op} {missing : BTreeSet OpId} {charge : ℕ}

/-- What a new record is charged to one scope. -/
theorem charge_scope {κ : Type} [Ord κ] [TransOrd κ] [LawfulEqOrd κ] [DecidableEq κ]
    {usage : BTreeMap κ PendingUsage} (scope : PendingRecord → κ) (rec : PendingRecord) (hnew : m[id]? = none)
    (husage : ∀ k, usageOf usage k = usageBy (fun rec => decide (scope rec = k)) m) (k : κ) :
    usageOf (usage.insert (scope rec) ((usageOf usage (scope rec)).charged rec.charge)) k =
      usageBy (fun rec => decide (scope rec = k)) (m.insert id rec) := by
  rw [usageOf_insert, usageBy_insert_new hnew, ← husage]
  by_cases hk : scope rec = k
  · simp [hk]
  · simp [hk]

theorem within_insert {κ : Type} [Ord κ] [TransOrd κ] [LawfulEqOrd κ] [DecidableEq κ]
    {usage : BTreeMap κ PendingUsage} {k : κ} (h : ∀ k, (usageOf usage k).Within ops bytes)
    (hk : u.Within ops bytes) (k' : κ) :
    (usageOf (usage.insert k u) k').Within ops bytes := by
  rw [usageOf_insert]
  split
  · exact hk
  · exact h k'

/-- `p'` is `p` with `op` buffered behind `missing`. -/
structure Stored (p : PendingIndex) (op : Op) (missing : BTreeSet OpId) (p' : PendingIndex) : Prop where
  record : ∃ rec, p'.pendingRecords[op.id]? = some rec ∧ rec.missing = missing ∧ rec.topicId = op.body.topicId
  records : ∀ k : OpId, op.id ≠ k → p'.pendingRecords[k]? = p.pendingRecords[k]?
  ops : ∀ k : OpId, p'.pendingOps[k]? = if op.id = k then some op else p.pendingOps[k]?
  rejected : p'.rejected = p.rejected
  since : p'.pendingSince = p.pendingSince

theorem exists_getElem?_insert {Q : PendingRecord → Prop} {k : OpId} :
    (∃ rec', (m.insert id rec)[k]? = some rec' ∧ Q rec') ↔
      id = k ∧ Q rec ∨ id ≠ k ∧ ∃ rec', m[k]? = some rec' ∧ Q rec' := by
  rw [getElem?_insert]
  by_cases hk : id = k <;> simp [hk]

/-- The waits of `op` are moved to `missing`. -/
theorem PendingOK.mem_waiters (h : PendingOK p) (op : Op) (missing : BTreeSet OpId) {d k : OpId} :
    k ∈ SetMap.get (PendingIndex.waitAll (PendingIndex.unwaitAll p.pendingWaiters
      (((p.pendingRecords[op.id]?.map (·.missing)).getD ∅) \ missing).toList op.id) missing.toList op.id) d ↔
      op.id = k ∧ d ∈ missing ∨ op.id ≠ k ∧ ∃ rec, p.pendingRecords[k]? = some rec ∧ d ∈ rec.missing := by
  simp only [PendingIndex.waitAll, PendingIndex.unwaitAll, SetMap.mem_get_foldl_insert,
    SetMap.mem_get_foldl_erase, mem_toList, ExtTreeSet.mem_diff_iff, h.waiters]
  by_cases hk : op.id = k
  · subst hk
    simp only [true_and, ne_eq, not_true, false_and, or_false, or_iff_left_iff_imp]
    rintro ⟨⟨rec, hrec, hd⟩, hno⟩
    simp only [hrec, Option.map_some, Option.getD_some, not_and, not_not] at hno
    exact hno hd
  · simp [hk]

theorem PendingOK.mem_ready (h : PendingOK p) (op : Op) (missing : BTreeSet OpId) {k : OpId} :
    k ∈ (if missing.isEmpty then p.pendingReady.insert op.id else p.pendingReady.erase op.id) ↔
      op.id = k ∧ missing = ∅ ∨ op.id ≠ k ∧ ∃ rec, p.pendingRecords[k]? = some rec ∧ rec.missing = ∅ := by
  rw [← h.ready]
  split
  · rename_i h0
    by_cases hk : op.id = k <;> simp [hk, ExtTreeSet.isEmpty_iff.1 h0]
  · rename_i h0
    have hne : missing ≠ ∅ := fun h => h0 (ExtTreeSet.isEmpty_iff.2 h)
    simp [hne]

/-- **Buffering an op keeps the indexes in step**, and the quotas when a new op was checked. -/
theorem PendingOK.store (h : PendingOK p) (missing : BTreeSet OpId)
    (hop : ∀ rec, p.pendingRecords[op.id]? = some rec → p.pendingOps[op.id]? = some op)
    (hquota : p.pendingRecords[op.id]? = none → checkPendingQuota p.pendingUsage (usageOf p.sourceUsage source)
      (usageOf p.topicUsage op.body.topicId) charge = .ok ()) :
    PendingOK (p.store source op missing charge) ∧ Stored p op missing (p.store source op missing charge) := by
  unfold PendingIndex.store
  dsimp only
  have hwaiters := fun d k => h.mem_waiters op missing (d := d) (k := k)
  have hready := fun k => h.mem_ready op missing (k := k)
  set w := PendingIndex.waitAll (PendingIndex.unwaitAll p.pendingWaiters
    (((p.pendingRecords[op.id]?.map (·.missing)).getD ∅) \ missing).toList op.id) missing.toList op.id with hw
  have hkeys : SetMap.NoEmpty w := h.waiterKeys.foldl_erase.foldl_insert
  clear_value w
  have hother : ∀ {rec k}, op.id ≠ k → (p.pendingRecords.insert op.id rec)[k]? = p.pendingRecords[k]? := by
    intro rec k hk
    simp [getElem?_insert, hk]
  cases hrec : p.pendingRecords[op.id]? with
  | some rec =>
    have hold := hop rec hrec
    obtain ⟨op', hop', -, htopic⟩ := h.opOf _ _ hrec
    rw [hold] at hop'
    cases hop'
    have hops : ∀ k : OpId, p.pendingOps[k]? = if op.id = k then some op else p.pendingOps[k]? := by
      intro k
      split
      · rename_i hk
        rw [← hk, hold]
      · rfl
    have husage : ∀ f : PendingRecord → Bool, (∀ rec s, f { rec with missing := s } = f rec) →
        usageBy f (p.pendingRecords.insert op.id { rec with missing := missing }) = usageBy f p.pendingRecords :=
      fun f hf => usageBy_insert_same hrec (hf rec missing) rfl
    refine ⟨⟨?_, ?_, ?_, hkeys, ?_, ?_, h.topicKeys, ?_, ?_, ?_, h.usageKeys, h.totalQuota, h.sourceQuota,
      h.topicQuota⟩, ⟨_, getElem?_insert_self, rfl, htopic.symm⟩, fun k hk => hother hk, hops, rfl, rfl⟩
    · intro k rec' hk
      by_cases hid : op.id = k
      · subst hid
        rw [getElem?_insert_self] at hk
        cases hk
        exact ⟨op, hold, rfl, htopic⟩
      · exact h.opOf k rec' ((hother hid).symm.trans hk)
    · intro k hk
      by_cases hid : op.id = k
      · subst hid
        simp at hk
      · exact h.recordOf k ((hother hid).symm.trans hk)
    · intro d k
      rw [hwaiters, exists_getElem?_insert]
    · intro k
      rw [hready, exists_getElem?_insert]
    · intro t k
      rw [h.byTopic, exists_getElem?_insert]
      by_cases hid : op.id = k
      · subst hid
        simp [hrec]
      · simp [hid]
    · rw [husage _ fun _ _ => rfl]
      exact h.total
    · intro s
      rw [husage _ fun _ _ => rfl]
      exact h.source s
    · intro t
      rw [husage _ fun _ _ => rfl]
      exact h.topic t
  | none =>
    obtain ⟨hto, htb, hso, hsb, hpo, hpb⟩ := checkPendingQuota_eq_ok.1 (hquota hrec)
    set rec : PendingRecord := ⟨source, op.body.topicId, missing, charge⟩ with hrecord
    refine ⟨⟨?_, ?_, ?_, hkeys, ?_, ?_, h.topicKeys.insert, ?_, ?_, ?_, ?_, ⟨hto, htb⟩, ?_, ?_⟩,
      ⟨rec, getElem?_insert_self, rfl, rfl⟩, fun k hk => hother hk, ?_, rfl, rfl⟩
    · intro k rec' hk
      by_cases hid : op.id = k
      · subst hid
        rw [getElem?_insert_self] at hk
        cases hk
        exact ⟨op, getElem?_insert_self, rfl, rfl⟩
      · obtain ⟨x, hx, hrest⟩ := h.opOf k rec' ((hother hid).symm.trans hk)
        exact ⟨x, by simp [getElem?_insert, hid, hx], hrest⟩
    · intro k hk
      by_cases hid : op.id = k
      · subst hid
        simp at hk
      · have := h.recordOf k ((hother hid).symm.trans hk)
        simp [getElem?_insert, hid, this]
    · intro d k
      rw [hwaiters, exists_getElem?_insert]
    · intro k
      rw [hready, exists_getElem?_insert]
    · intro t k
      rw [SetMap.mem_get_insert, h.byTopic, exists_getElem?_insert]
      by_cases hid : op.id = k
      · subst hid
        simp [hrec, hrecord]
      · simp [hid]
    · rw [usageBy_insert_new hrec, if_pos rfl, ← h.total]
    · exact charge_scope PendingRecord.source rec hrec h.source
    · exact charge_scope PendingRecord.topicId rec hrec h.topic
    · exact ⟨fun _ => insert_charged_ne_zero h.usageKeys.1, fun _ => insert_charged_ne_zero h.usageKeys.2⟩
    · exact within_insert h.sourceQuota ⟨hso, hsb⟩
    · exact within_insert h.topicQuota ⟨hpo, hpb⟩
    · intro k
      simp [getElem?_insert]

/-! ## Writes to the buffer -/

/-- The indexes are in step and, where `K` holds, no buffered op or dependency it waits for is stored.
Every write to one store keeps both; copying a topic into a store keeps only the first. -/
structure BufferOK (K : Prop) (r : Records) (p : PendingIndex) : Prop where
  ok : PendingOK p
  stored : K → ∀ (id : OpId) rec, p.pendingRecords[id]? = some rec → r.depResolvable id = false
  missing : K → ∀ (id : OpId) rec, p.pendingRecords[id]? = some rec → ∀ d ∈ rec.missing, r.depResolvable d = false

variable {K : Prop} {r r' : Records} {inner : MemoryInner}

theorem bufferOK_empty : BufferOK K r {} := ⟨pendingOK_empty, by simp, by simp⟩

theorem Removed.getElem?_records {ids : List OpId} {k : OpId} (R : Removed p ids p') :
    p'.pendingRecords[k]? = some rec ↔ k ∉ ids ∧ p.pendingRecords[k]? = some rec := by
  rw [R.records]
  by_cases hk : k ∈ ids <;> simp [hk]

theorem Removed.getElem?_ops {ids : List OpId} {k : OpId} (R : Removed p ids p') :
    p'.pendingOps[k]? = some op ↔ k ∉ ids ∧ p.pendingOps[k]? = some op := by
  rw [R.ops]
  by_cases hk : k ∈ ids <;> simp [hk]

theorem BufferOK.removed {ids : List OpId} (B : BufferOK K r p) (ok : PendingOK p') (R : Removed p ids p') :
    BufferOK K r p' :=
  ⟨ok, fun hK id rec h => B.stored hK id rec (R.getElem?_records.1 h).2,
    fun hK id rec h => B.missing hK id rec (R.getElem?_records.1 h).2⟩

/-- Records that resolve no more leave the buffer unresolved. -/
theorem BufferOK.of_resolves (B : BufferOK K r p)
    (h : ∀ id, r'.depResolvable id = true → r.depResolvable id = true) :
    BufferOK K r' p := by
  have hno : ∀ {id}, r.depResolvable id = false → r'.depResolvable id = false := by
    intro id hid
    rw [Bool.eq_false_iff] at hid ⊢
    exact fun h' => hid (h id h')
  exact ⟨B.ok, fun hK id rec hrec => hno (B.stored hK id rec hrec),
    fun hK id rec hrec d hd => hno (B.missing hK id rec hrec d hd)⟩

theorem BufferOK.store (B : BufferOK K r p) (ok : PendingOK p') (S : Stored p op missing p')
    (hop : r.depResolvable op.id = false) (hmissing : ∀ d ∈ missing, r.depResolvable d = false) :
    BufferOK K r p' := by
  obtain ⟨rec₀, h₀, hmiss, -⟩ := S.record
  refine ⟨ok, fun hK id rec h => ?_, fun hK id rec h => ?_⟩ <;> by_cases hid : op.id = id
  · exact hid ▸ hop
  · exact B.stored hK id rec ((S.records id hid).symm.trans h)
  · subst hid
    rw [h₀] at h
    cases h
    exact hmiss ▸ hmissing
  · exact B.missing hK id rec ((S.records id hid).symm.trans h)

theorem BufferOK.removePendingOp (B : BufferOK K r p) (id : OpId) :
    ∃ p', p.removePendingOp id = (.ok (), p') ∧ BufferOK K r p' ∧ Removed p [id] p' := by
  obtain ⟨p', h, ok, R⟩ := B.ok.remove id
  refine ⟨p', ?_, B.removed ok R, R⟩
  simp only [PendingIndex.removePendingOp, h]

theorem BufferOK.purge (B : BufferOK K r p) (dep : OpId) :
    ∃ k p', p.purgePendingWaiters dep = (.ok k, p') ∧ BufferOK K r p' ∧
      Removed p (p.waiterClosureLocked dep).toList p' := by
  obtain ⟨p', h, ok, R⟩ := B.ok.removeAll (p.waiterClosureLocked dep).toList
  refine ⟨(p.waiterClosureLocked dep).size, p', ?_, B.removed ok R, R⟩
  simp only [PendingIndex.purgePendingWaiters, h]

/-- One op waits on another. -/
def PendingIndex.Waits (p : PendingIndex) (d k : OpId) : Prop := k ∈ SetMap.get p.pendingWaiters d

theorem waiterWalk_eq (waiters : BTreeMap OpId (BTreeSet OpId)) (fuel : ℕ) (frontier : List OpId)
    (seen : BTreeSet OpId) :
    PendingIndex.waiterWalk waiters fuel frontier seen =
      Reach.walk (fun d => (SetMap.get waiters d).toList) fuel frontier seen := by
  induction fuel generalizing frontier seen with
  | zero => rfl
  | succ fuel ih =>
    cases frontier with
    | nil => rfl
    | cons d frontier => exact ih _ _

/-- **The closure of an op** are the ops that transitively wait on it, without it. -/
theorem PendingIndex.mem_waiterClosure {x dep : OpId} :
    x ∈ p.waiterClosureLocked dep ↔ x ≠ dep ∧ Relation.TransGen p.Waits dep x := by
  have hwaits : Reach.Step (fun d => (SetMap.get p.pendingWaiters d).toList) = p.Waits := by
    funext d k
    exact propext mem_toList
  unfold PendingIndex.waiterClosureLocked
  rw [waiterWalk_eq, ExtTreeSet.mem_erase, Reach.mem_walk (p.pendingWaiters.toList.flatMap fun e => e.2.toList),
    hwaits]
  · rw [Ne, Std.compare_eq_iff_eq, Ne, eq_comm]
  · intro d k hk
    rw [mem_toList, SetMap.get] at hk
    cases hd : p.pendingWaiters[d]? with
    | none => simp [hd] at hk
    | some set =>
      rw [hd] at hk
      exact List.mem_flatMap.2 ⟨(d, set), mem_toList_iff_getElem?_eq_some.2 hd, mem_toList.2 hk⟩
  · rw [List.length_flatMap]
    simp

/-- The rejection marks take no part in the indexes. -/
theorem PendingOK.withRejected (h : PendingOK p) (marks : BTreeMap TopicId RejectedIds) :
    PendingOK { p with rejected := marks } := { h with }

theorem PendingOK.withSince (h : PendingOK p) (since : BTreeMap OpId ℕ) :
    PendingOK { p with pendingSince := since } :=
  { h with }

/-- Only buffered ops were taken out. -/
structure Thinned (p p' : PendingIndex) : Prop where
  records : ∀ (k : OpId) rec, p'.pendingRecords[k]? = some rec → p.pendingRecords[k]? = some rec
  ops : ∀ (k : OpId) op, p'.pendingOps[k]? = some op → p.pendingOps[k]? = some op

theorem Thinned.refl (p : PendingIndex) : Thinned p p := ⟨fun _ _ h => h, fun _ _ h => h⟩

theorem Thinned.trans {p p' p'' : PendingIndex} (h : Thinned p p') (h' : Thinned p' p'') : Thinned p p'' :=
  ⟨fun k rec hk => h.records k rec (h'.records k rec hk), fun k op hk => h.ops k op (h'.ops k op hk)⟩

theorem Removed.thinned {p p' : PendingIndex} {ids : List OpId} (h : Removed p ids p') : Thinned p p' :=
  ⟨fun _ _ hk => (h.getElem?_records.1 hk).2, fun _ _ hk => (h.getElem?_ops.1 hk).2⟩

/-- A rejection fails only when its reservation does, and then nothing changes. -/
theorem BufferOK.reject (B : BufferOK K r p) (reserve : Result Unit) (id : OpId) :
    (∃ e, reserve = .error e ∧ p.rejectPendingSubtree reserve id = (.error e, p)) ∨
      ∃ k p', p.rejectPendingSubtree reserve id = (.ok k, p') ∧ BufferOK K r p' ∧
        p'.pendingSince = p.pendingSince ∧ Thinned p p' := by
  unfold PendingIndex.rejectPendingSubtree
  cases p.pendingRecords[id]? with
  | none => exact Or.inr ⟨0, p, rfl, B, rfl, .refl p⟩
  | some rec =>
    dsimp only
    cases reserve with
    | error e => exact Or.inl ⟨e, rfl, rfl⟩
    | ok u =>
      obtain ⟨p', h, ok, R⟩ := B.ok.removeAll ((p.waiterClosureLocked id).insert id).toList
      refine Or.inr ⟨_, _, by simp only [h]; rfl, ?_, ?_, ?_⟩
      · have B' := B.removed ok R
        exact ⟨ok.withRejected _, B'.stored, B'.missing⟩
      · exact R.since
      · exact ⟨R.thinned.records, R.thinned.ops⟩

theorem getElem?_sweep (l : List OpId) (now : ℕ) (since : BTreeMap OpId ℕ) (k : OpId) :
    (l.foldl (fun since id => if since.contains id then since else since.insert id now) since)[k]? =
      if k ∈ l then some (since[k]?.getD now) else since[k]? := by
  induction l generalizing since with
  | nil => simp
  | cons id l ih =>
    rw [List.foldl_cons, ih]
    by_cases hid : since.contains id = true
    · rw [if_pos hid]
      have hmem : id ∈ since := ExtTreeMap.mem_iff_contains.2 hid
      by_cases hk : k = id
      · subst hk
        rw [getElem?_eq_some_getElem hmem]
        simp
      · simp [hk]
    · rw [if_neg hid, getElem?_insert]
      have hnone : since[id]? = none := getElem?_eq_none fun h => hid (ExtTreeMap.mem_iff_contains.1 h)
      by_cases hk : id = k
      · subst hk
        simp [hnone]
      · simp [hk, Ne.symm hk]

/-- A sweep times the buffered ops it sees first. -/
theorem PendingIndex.getElem?_sweepSince (now : ℕ) (k : OpId) :
    (p.sweepSince now)[k]? = if k ∈ p.pendingRecords then some (p.pendingSince[k]?.getD now) else none := by
  unfold PendingIndex.sweepSince
  simp only [getElem?_sweep, mem_keys, getElem?_filter_key]
  by_cases hk : k ∈ p.pendingRecords
  · simp [hk]
  · simp [hk]

theorem BufferOK.expireIds (B : BufferOK K r p) (removed : BTreeSet OpId) (ids : List OpId) :
    ∃ removed' p', p.expireIds removed ids = (.ok removed', p') ∧ BufferOK K r p' ∧ Thinned p p' := by
  induction ids generalizing p removed with
  | nil => exact ⟨removed, p, rfl, B, .refl p⟩
  | cons id ids ih =>
    unfold PendingIndex.expireIds
    split
    · obtain ⟨p₁, h₁, ok₁, R₁⟩ := B.ok.remove id
      have B₁ := B.removed ok₁ R₁
      have B₂ : BufferOK K r { p₁ with pendingSince := p₁.pendingSince.erase id } :=
        ⟨ok₁.withSince _, B₁.stored, B₁.missing⟩
      obtain ⟨removed', p', h', B', hsub⟩ := ih B₂ (removed.insert id)
      exact ⟨removed', p', by simp only [h₁, h'], B', R₁.thinned.trans ⟨hsub.records, hsub.ops⟩⟩
    · exact ih B removed

theorem BufferOK.expireAll (B : BufferOK K r p) (removed : BTreeSet OpId) (ids : List OpId) :
    ∃ removed' p', p.expireAll removed ids = (.ok removed', p') ∧ BufferOK K r p' ∧ Thinned p p' := by
  induction ids generalizing p removed with
  | nil => exact ⟨removed, p, rfl, B, .refl p⟩
  | cons id ids ih =>
    obtain ⟨removed₁, p₁, h₁, B₁, hsub₁⟩ := B.expireIds removed ((p.waiterClosureLocked id).insert id).toList
    obtain ⟨removed', p', h', B', hsub⟩ := ih B₁ removed₁
    refine ⟨removed', p', ?_, B', hsub₁.trans hsub⟩
    simp only [PendingIndex.expireAll, h₁, h']

theorem BufferOK.expire (B : BufferOK K r p) (now maxIdle : ℕ) :
    ∃ k p', p.expirePending now maxIdle = (.ok k, p') ∧ BufferOK K r p' ∧ Thinned p p' := by
  unfold PendingIndex.expirePending
  dsimp only
  have B₀ : BufferOK K r { p with pendingSince := p.sweepSince now } := ⟨B.ok.withSince _, B.stored, B.missing⟩
  obtain ⟨removed, p', h, B', hsub⟩ := B₀.expireAll ∅ (p.pendingRecords.keys.filter fun id =>
    decide (min ((p.sweepSince now)[id]?.getD now + maxIdle) (u64Size - 1) < now))
  exact ⟨removed.size, p', by rw [h], B', ⟨hsub.records, hsub.ops⟩⟩

/-- A bound of the buffer, the frame, the staging area, the journal or the memory budget refused. -/
def Error.isLimit : Error → Bool
  | .memoryPressure _ _ _ | .opTooLarge | .stagingCapacity _ | .evictionJournalFull | .topicSealed => true
  | .storage message => message ∈ ["pending op buffer is full", "pending byte budget is full",
      "pending op source quota exceeded", "pending byte quota exceeded for source",
      "pending op topic quota exceeded", "pending byte quota exceeded for topic", "pending waiter quota exceeded",
      "pending op has too many missing deps"]
  | _ => false

theorem checkPendingQuota_post {total source topic : PendingUsage} :
    Post (checkPendingQuota total source topic charge)
      (fun _ => checkPendingQuota total source topic charge = .ok ()) fun e => e.isLimit = true := by
  refine Post.intro (fun _ h => h) fun e h => ?_
  unfold checkPendingQuota at h
  repeat' split at h
  all_goals cases h <;> decide

theorem StagingQuota.check_post {q : StagingQuota} {held : ℕ} :
    Post (q.check held charge) (fun _ => True) fun e => ∃ message, e = .stagingCapacity message := by
  unfold StagingQuota.check
  repeat' split
  all_goals first | exact Post.ok trivial | exact Post.error ⟨_, rfl⟩

/-- Why an op is not buffered. -/
inductive PutFails (reserve : ℕ → Result Unit) (quota : Option StagingQuota) (inner : MemoryInner) (op : Op)
    (m : OpMeta) (genesis : Option OpId) : Error → Prop
  | limit {e : Error} (h : e.isLimit = true) : PutFails reserve quota inner op m genesis e
  | mismatch (h : m.topicId ≠ op.body.topicId ∨ m.id ≠ op.id) : PutFails reserve quota inner op m genesis
      .topicMismatch
  | stale (h : genesis ≠ none) : PutFails reserve quota inner op m genesis .staleIncarnation
  | conflict {d : OpId} (hd : d ∈ m.missingDeps) (h : inner.depResolvable d = true) :
      PutFails reserve quota inner op m genesis .admissionConflict
  | rejected {id : OpId} (hid : id = op.id ∨ id ∈ m.missingDeps)
      (h : id ∈ (inner.rejected[op.body.topicId]?.getD {}).ids) :
      PutFails reserve quota inner op m genesis (.rejectedOp id)
  | collision {x : Op} (h : inner.pendingOps[op.id]? = some x) (hne : x ≠ op) :
      PutFails reserve quota inner op m genesis (.storage "pending op id collision with different op")
  | fault {k : ℕ} {e : Error} (h : reserve k = .error e) : PutFails reserve quota inner op m genesis e

/-- What buffering an op leaves: the op was there already, or it is stored now. -/
def PutLeaves (K : Prop) (inner : MemoryInner) (op : Op) (missing : BTreeSet OpId) (p' : PendingIndex) : Prop :=
  BufferOK K inner.toRecords p' ∧
    (p' = inner.toPendingIndex ∧ (inner.depResolvable op.id = true ∨
        ∃ rec, inner.pendingRecords[op.id]? = some rec ∧ rec.missing = missing) ∨
      Stored inner.toPendingIndex op missing p' ∧ inner.depResolvable op.id = false)

/-- **Buffering an op keeps the buffer sound.** -/
theorem putPendingBound_post {E : Env} {reserve : ℕ → Result Unit} {quota : Option StagingQuota} {m : OpMeta}
    {genesis : Option OpId} (B : BufferOK K inner.toRecords inner.toPendingIndex) :
    Post (putPendingBound E reserve quota inner source op m genesis) (PutLeaves K inner op m.missingDeps)
      (PutFails reserve quota inner op m genesis) := by
  unfold putPendingBound
  refine refuseIf_bind .mismatch fun _ => refuseIf_bind (fun _ => .limit rfl) fun _ => ?_
  have hbranch : Post (if genesis.isSome = true then branchMatches inner.topics[op.body.topicId]? genesis
    else .ok ())
      (fun _ => True) (PutFails reserve quota inner op m genesis) := by
    split
    · rename_i hsome
      unfold branchMatches
      split
      · exact Post.ok trivial
      · exact Post.error (.stale fun h => by simp [h] at hsome)
    · exact Post.ok trivial
  refine Post.ite_bind hbranch fun _ _ => ?_
  split
  · rename_i hres
    exact Post.pure ⟨B, Or.inl ⟨rfl, Or.inl hres⟩⟩
  · rename_i hres
    have hres' : inner.depResolvable op.id = false := Bool.eq_false_iff.2 hres
    refine refuseIf_bind (fun hany => ?_) fun hnone => ?_
    · obtain ⟨d, hd, hdr⟩ := List.any_eq_true.1 hany
      exact .conflict (mem_toList.1 hd) hdr
    · have hmissing : ∀ d ∈ m.missingDeps, inner.depResolvable d = false := by
        intro d hd
        rw [Bool.eq_false_iff]
        exact fun hdr => hnone (List.any_eq_true.2 ⟨d, mem_toList.2 hd, hdr⟩)
      dsimp only
      split
      · rename_i id hfind
        refine Post.error (.rejected ?_ ?_)
        · simpa using List.mem_of_find?_eq_some hfind
        · simpa using List.find?_some hfind
      · refine refuseIf_bind (fun hcol => ?_) fun hcol => ?_
        · obtain ⟨rec, hrec⟩ := Option.isSome_iff_exists.1 hcol.1
          obtain ⟨x, hx, -⟩ := B.ok.opOf _ _ hrec
          refine .collision hx fun h => hcol.2 ?_
          rw [hx, h]
        · split
          · rename_i hsame
            cases hrec : inner.pendingRecords[op.id]? with
            | none => simp [hrec] at hsame
            | some rec =>
              rw [hrec] at hsame
              exact Post.pure ⟨B, Or.inl ⟨rfl, Or.inr ⟨rec, hrec, of_decide_eq_true hsame⟩⟩⟩
          · refine (Post.forM (I := fun _ => True) fun d _ => ?_).bind fun _ _ => ?_
            · exact refuseIf_post (fun _ => .limit rfl) fun _ => trivial
            · have hop : ∀ rec, inner.pendingRecords[op.id]? = some rec → inner.pendingOps[op.id]? = some op := by
                intro rec hrec
                by_contra hne
                exact hcol ⟨by simp [hrec], hne⟩
              have finish : (inner.pendingRecords[op.id]? = none →
                  checkPendingQuota inner.pendingUsage (usageOf inner.sourceUsage source)
                    (usageOf inner.topicUsage op.body.topicId) (E.opBytes op) = .ok ()) →
                  Post (do
                    reserve 0
                    pure (inner.toPendingIndex.store source op m.missingDeps (E.opBytes op)) :
                    Result PendingIndex)
                  (PutLeaves K inner op m.missingDeps) (PutFails reserve quota inner op m genesis) := by
                intro hquota
                obtain ⟨ok, S⟩ := B.ok.store m.missingDeps hop hquota
                refine (Post.intro (fun _ _ => trivial) fun e he => .fault he).bind fun _ _ =>
                  Post.pure ⟨B.store ok S hres' hmissing, Or.inr ⟨S, hres'⟩⟩
              have charged : Post (checkPendingQuota inner.pendingUsage (usageOf inner.sourceUsage source)
                  (usageOf inner.topicUsage op.body.topicId) (E.opBytes op)) _
                  (PutFails reserve quota inner op m genesis) :=
                checkPendingQuota_post.mono (fun _ h => h) fun _ h => .limit h
              split
              · cases quota with
                | none => exact charged.bind fun _ hquota => finish fun _ => hquota
                | some q =>
                  refine (StagingQuota.check_post.mono (fun _ h => h) fun e h => ?_).bind fun _ _ =>
                    charged.bind fun _ hquota => finish fun _ => hquota
                  obtain ⟨message, rfl⟩ := h
                  exact .limit rfl
              · rename_i hsome
                exact finish fun hnone => absurd (by simp [hnone]) hsome

/-! ## Admitting buffered ops -/

/-- `p'` is `p` once the ops `ids` are admitted: they are not buffered, and nobody waits for them. -/
structure Absorbed (p : PendingIndex) (ids : List OpId) (p' : PendingIndex) : Prop where
  records : ∀ k : OpId, p'.pendingRecords[k]? = if k ∈ ids then none else
    p.pendingRecords[k]?.map fun rec => { rec with missing := rec.missing.filter fun d => decide (d ∉ ids) }
  ops : ∀ k : OpId, p'.pendingOps[k]? = if k ∈ ids then none else p.pendingOps[k]?
  rejected : p'.rejected = p.rejected
  since : p'.pendingSince = p.pendingSince

theorem Absorbed.nil : Absorbed p [] p := by
  refine ⟨fun k => ?_, by simp, rfl, rfl⟩
  have hid : ∀ s : BTreeSet OpId, (s.filter fun d => decide (d ∉ ([] : List OpId))) = s := by
    intro s
    refine ext_mem fun d => ?_
    simp
  simp only [hid]
  simp

theorem Absorbed.trans {ids ids' : List OpId} {p'' : PendingIndex} (h : Absorbed p ids p')
    (h' : Absorbed p' ids' p'') :
    Absorbed p (ids ++ ids') p'' where
  records k := by
    rw [h'.records, h.records]
    have hfilter : ∀ s : BTreeSet OpId, ((s.filter fun d => decide (d ∉ ids)).filter fun d => decide (d ∉ ids')) =
        s.filter fun d => decide (d ∉ ids ++ ids') := by
      intro s
      refine ext_mem fun d => ?_
      by_cases h1 : d ∈ ids <;> simp [h1]
    by_cases h1 : k ∈ ids
    · simp [h1]
    · by_cases h2 : k ∈ ids'
      · simp [h2]
      · have h12 : k ∉ ids ++ ids' := by simp [h1, h2]
        simp only [h1, h2, h12, if_false, Option.map_map]
        congr 1
        funext rec
        simp only [Function.comp, hfilter]
  ops k := by
    rw [h'.ops, h.ops]
    by_cases h1 : k ∈ ids <;> by_cases h2 : k ∈ ids' <;> simp [h1, h2]
  rejected := h'.rejected.trans h.rejected
  since := h'.since.trans h.since

/-- Admitting an op takes it out of the buffer and settles its waiters. -/
theorem BufferOK.absorb (B : BufferOK K r p) (r' : Records) (id : OpId)
    (hr : ∀ k, r'.depResolvable k = true → k = id ∨ r.depResolvable k = true) :
    ∃ p₁, p.removePendingLocked id = .ok p₁ ∧ BufferOK K r' (p₁.settleWaitersLocked id) ∧
      Absorbed p [id] (p₁.settleWaitersLocked id) := by
  obtain ⟨p₁, h₁, ok₁, R₁⟩ := B.ok.remove id
  obtain ⟨ok₂, hrec, hops, hrej, hsince⟩ := ok₁.settle id
  have hno : ∀ {k}, k ≠ id → r.depResolvable k = false → r'.depResolvable k = false := by
    intro k hk hf
    rw [Bool.eq_false_iff] at hf ⊢
    exact fun h => (hr k h).elim hk hf
  have hA : Absorbed p [id] (p₁.settleWaitersLocked id) := by
    refine ⟨fun k => ?_, fun k => by rw [hops, R₁.ops], hrej.trans R₁.rejected, hsince.trans R₁.since⟩
    rw [hrec, R₁.records]
    split
    · rfl
    · congr 1
      funext rec
      have herase : rec.missing.erase id = rec.missing.filter fun d => decide (d ∉ [id]) := by
        refine ext_mem fun d => ?_
        by_cases hd : id = d
        · simp [hd]
        · simp [hd, Ne.symm hd]
      simp only [PendingRecord.settled, herase]
  have hread : ∀ {k : OpId} {rec'}, (p₁.settleWaitersLocked id).pendingRecords[k]? = some rec' →
      k ≠ id ∧ ∃ rec, p.pendingRecords[k]? = some rec ∧ ∀ d ∈ rec'.missing, d ≠ id ∧ d ∈ rec.missing := by
    intro k rec' h
    rw [hA.records] at h
    split at h
    · cases h
    · rename_i hk
      obtain ⟨rec, hrec, rfl⟩ := Option.map_eq_some_iff.1 h
      exact ⟨by simpa using hk, rec, hrec, fun d hd => by simpa [and_comm] using hd⟩
  refine ⟨p₁, h₁, ⟨ok₂, fun hK k rec' h => ?_, fun hK k rec' h d hd => ?_⟩, hA⟩
  · obtain ⟨hk, rec, hrec, -⟩ := hread h
    exact hno hk (B.stored hK k rec hrec)
  · obtain ⟨-, rec, hrec, hmiss⟩ := hread h
    exact hno (hmiss d hd).1 (B.missing hK k rec hrec d (hmiss d hd).2)

end Irokle
