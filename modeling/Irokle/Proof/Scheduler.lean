import Irokle.Spec.Scheduler

/-!
# The resync scheduler loses no work

A completion compares what its claim captured with what the entry holds now. Attempt ids are never used twice, so
only the claim of the current incarnation of an entry owns it, and revisions of one incarnation only grow: a claim
made before a request covers less than the entry then asks for, and neither removes the entry nor drops the
request's force mark.

* `step_change` — what any call but `due_targets` does to one entry;
* `SchedInv.step`, `Pending.step` — one call keeps the ownership of claims and a pending request;
* `resync_loses_no_work` — every interleaving.
-/

namespace Irokle

open Std List

variable {w w' : Resync} {e : ResyncEvent} {k : ResyncTargetKey} {c : ResyncTarget}

namespace ResyncEvent

/-- The claim that a completion or release consumes. -/
def consumes : ResyncEvent → Option ResyncTarget
  | .completeClean c _ => some c
  | .completeDirty c _ _ => some c
  | .completeFailed c _ _ _ => some c
  | .release c _ _ => some c
  | _ => none

/-- The call is a clean completion of the claim. -/
def Cleans (e : ResyncEvent) (c : ResyncTarget) : Prop := ∃ now, e = .completeClean c now

/-- The call is a clean or dirty completion of the claim. -/
def Finishes (e : ResyncEvent) (c : ResyncTarget) : Prop :=
  e.Cleans c ∨ ∃ after now, e = .completeDirty c after now

/-- The call asks for the targets that are due. -/
def isDue : ResyncEvent → Bool
  | .dueTargets _ _ _ => true
  | _ => false

end ResyncEvent

/-! ## What a call does to one entry -/

/-- The changes of an entry: none that counts, a new entry, new work, or the end of the attempt that owned it. -/
inductive Change (e : ResyncEvent) (k : ResyncTargetKey) : Option ScheduledResync → Option ScheduledResync → Prop
  | absent : Change e k none none
  | same {t t' : ScheduledResync} (hr : t'.requested = t.requested) (ha : t'.active = t.active)
  (hf : t'.force = t.force)
      (hc : ∀ c ∈ e.consumes, c.key = k → t.active ≠ some c.attempt) : Change e k (some t) (some t')
  | created {t' : ScheduledResync} (ha : t'.active = none) (hf : ∀ f ∈ t'.force, f ≤ t'.requested) :
      Change e k none (some t')
  | worked {t t' : ScheduledResync} (hr : t.requested < t'.requested) (ha : t'.active = t.active)
      (hf : t'.force = t.force ∨ t'.force = some t'.requested) (hc : e.consumes = none) :
      Change e k (some t) (some t')
  | settled {t t' : ScheduledResync} {c : ResyncTarget} (hc : c ∈ e.consumes) (hk : c.key = k)
      (ho : t.active = some c.attempt) (ha : t'.active = none) (hr : t'.requested = t.requested)
      (hf : t'.force = t.force ∨ t'.force = some t.requested ∨ t.force = c.force ∧ t'.force = none ∧
        e.Finishes c) : Change e k (some t) (some t')
  | removed {t : ScheduledResync} {c : ResyncTarget} (hc : c ∈ e.consumes) (hk : c.key = k)
      (ho : t.active = some c.attempt)
      (hr : t.requested = c.covered) (hf : t.force = c.force) (he : e.Cleans c) : Change e k (some t) none

theorem Change.refl (hc : e.consumes = none) (o : Option ScheduledResync) : Change e k o o := by
  cases o with
  | none => exact .absent
  | some t => exact .same rfl rfl rfl (by simp [hc])

theorem Change.insert {m : BTreeMap ResyncTargetKey ScheduledResync} {key : ResyncTargetKey}
    {t' : ScheduledResync} (hc : e.consumes = none) (h : Change e key m[key]? (some t')) :
    Change e k m[k]? (ExtTreeMap.insert m key t')[k]? := by
  rw [BTreeMap.getElem?_insert]
  split
  · rename_i hk
    exact hk ▸ h
  · exact .refl hc _

theorem settleClaim_change {s : ResyncScheduler} {f : ScheduledResync → Option ScheduledResync}
    (hc : e.consumes = some c) (hf : ∀ t, t.active = some c.attempt → Change e c.key (some t) (f t)) :
    Change e k s.targets[k]? (s.settleClaim c f).targets[k]? := by
  have hsame : ∀ k', (∀ t, s.targets[k']? = some t → k' = c.key → t.active ≠ some c.attempt) →
      Change e k' s.targets[k']? s.targets[k']? := by
    intro k' hne
    cases ht : s.targets[k']? with
    | none => exact .absent
    | some t =>
      refine .same rfl rfl rfl fun c' hc' hk => ?_
      rw [hc, Option.mem_some_iff] at hc'
      subst hc'
      exact hne t ht hk.symm
  unfold ResyncScheduler.settleClaim
  cases ht : s.targets[c.key]? with
  | none => exact hsame k fun t hk hkey => by rw [hkey, ht] at hk; cases hk
  | some t =>
    dsimp only
    by_cases ho : t.active = some c.attempt
    · rw [if_neg (not_not.2 ho)]
      have hchange := hf t ho
      by_cases hk : c.key = k
      · subst hk
        rw [ht]
        cases hft : f t with
        | none => simpa [hft] using hchange
        | some t' => simpa [hft] using hchange
      · have hother : ∀ t', s.targets[k]? = some t' → k = c.key → t'.active ≠ some c.attempt :=
          fun _ _ h => absurd h.symm hk
        cases hft : f t with
        | none => simpa [ExtTreeMap.getElem?_erase, hk] using hsame k hother
        | some t' => simpa [ExtTreeMap.getElem?_insert, hk] using hsame k hother
    · rw [if_pos ho]
      refine hsame k fun t' hk hkey => ?_
      rw [hkey, ht] at hk
      cases hk
      exact ho

/-- **What a call but `due_targets` does to an entry.** -/
theorem step_change (he : e.isDue = false) (hallowed : w.Allowed e) (k : ResyncTargetKey) :
    Change e k w.scheduler.targets[k]? (w.step e).scheduler.targets[k]? := by
  cases e with
  | dueTargets => cases he
  | scheduleNow key force now =>
    dsimp only [Resync.step, ResyncScheduler.scheduleNow]
    cases ht : w.scheduler.targets[key]? with
    | none =>
      refine .insert rfl (ht ▸ .created rfl fun f hf => ?_)
      cases force with
      | false => cases hf
      | true =>
        cases hf
        exact Nat.le_refl _
    | some t =>
      have hlt := hallowed t ht
      have hadd : saturatingAdd t.requested 1 = t.requested + 1 := by
        unfold saturatingAdd
        omega
      refine .insert rfl (ht ▸ .worked (by dsimp only; omega) rfl ?_ rfl)
      cases force
      · exact Or.inl rfl
      · exact Or.inr rfl
  | reconsider key now =>
    dsimp only [Resync.step, ResyncScheduler.reconsider]
    cases ht : w.scheduler.targets[key]? with
    | none => exact .insert rfl (ht ▸ .created rfl (by simp))
    | some t =>
      dsimp only
      split
      · exact .refl rfl _
      · exact .insert rfl (ht ▸ .same rfl rfl rfl (by simp [ResyncEvent.consumes]))
  | peerReachable peer now =>
    dsimp only [Resync.step, ResyncScheduler.peerReachable]
    rw [ExtTreeMap.getElem?_map]
    cases w.scheduler.targets[k]? with
    | none => exact .absent
    | some t =>
      rw [Option.map_some]
      split
      · exact .same rfl rfl rfl (by simp [ResyncEvent.consumes])
      · exact .refl rfl _
  | hand c' holder => exact .refl rfl _
  | completeClean c' now =>
    refine settleClaim_change rfl fun t ho => ?_
    split
    · exact .settled rfl rfl ho rfl rfl (Or.inl rfl)
    · rename_i hcovered
      rw [not_or, not_not, not_not] at hcovered
      exact .removed rfl rfl ho hcovered.1 hcovered.2 ⟨now, rfl⟩
  | completeDirty c' after now =>
    refine settleClaim_change rfl fun t ho => .settled rfl rfl ho rfl rfl ?_
    dsimp only
    split
    · rename_i hforce
      exact Or.inr (Or.inr ⟨hforce, rfl, Or.inr ⟨after, now, rfl⟩⟩)
    · exact Or.inl rfl
  | completeFailed c' initialBackoff maxBackoff now =>
    exact settleClaim_change rfl fun t ho => .settled rfl rfl ho rfl rfl (Or.inr (Or.inl rfl))
  | release c' after now =>
    refine settleClaim_change (s := (w.scheduler.endAttempt c'.key c'.attempt).2) rfl fun t ho =>
      .settled rfl rfl ho rfl rfl (Or.inl rfl)
  | beginAttempts keys =>
    dsimp only [Resync.step, ResyncScheduler.beginAttempts]
    split <;> exact .refl rfl _
  | endAttempt key attempt => exact .refl rfl _
  | dropAttempts attempt => exact .refl rfl _

/-! ## Who owns an entry -/

/-- What holds between the entries and the claims that are held. -/
structure SchedInv (w : Resync) : Prop where
  lt : ∀ h ∈ w.held, h.claim.attempt < w.scheduler.nextAttempt
  unique : ∀ h ∈ w.held, ∀ h' ∈ w.held, h.claim.attempt = h'.claim.attempt → h.claim = h'.claim
  owned : ∀ (k : ResyncTargetKey) (t : ScheduledResync) a, w.scheduler.targets[k]? = some t → t.active = some a →
    ∃ h ∈ w.held, h.claim.key = k ∧ h.claim.attempt = a
  covers : ∀ h ∈ w.held, ∀ t : ScheduledResync, w.scheduler.targets[h.claim.key]? = some t →
    t.active = some h.claim.attempt → h.claim.covered ≤ t.requested
  marks : ∀ h ∈ w.held, ∀ f ∈ h.claim.force, f ≤ h.claim.covered
  force : ∀ (k : ResyncTargetKey) (t : ScheduledResync) f, w.scheduler.targets[k]? = some t → t.force = some f →
    f ≤ t.requested
  turns : ∀ h ∈ w.held, ∀ h' ∈ w.held, w.Owner h.claim → w.Owner h'.claim → h.claim.key.1 = h'.claim.key.1 →
    h.call = h'.call

/-- How a call but `due_targets` changes the claims: it consumes one, or moves them between holders. -/
structure HeldBy (e : ResyncEvent) (w w' : Resync) : Prop where
  old : ∀ h ∈ w'.held, ∃ h₀ ∈ w.held, h₀.claim = h.claim ∧ h₀.call = h.call
  kept : ∀ h ∈ w.held, (∀ c ∈ e.consumes, h.claim ≠ c) → ∃ h' ∈ w'.held, h'.claim = h.claim
  attempts : w.scheduler.nextAttempt ≤ w'.scheduler.nextAttempt

theorem heldBy_of_eq (h : w'.held = w.held) (hn : w.scheduler.nextAttempt ≤ w'.scheduler.nextAttempt) :
    HeldBy e w w' :=
  ⟨fun x hx => ⟨x, h ▸ hx, rfl, rfl⟩, fun x hx _ => ⟨x, h ▸ hx, rfl⟩, hn⟩

theorem heldBy_consume (hc : e.consumes = some c) (h : w'.held = w.held.filter fun h => h.claim ≠ c)
    (hn : w'.scheduler.nextAttempt = w.scheduler.nextAttempt) : HeldBy e w w' := by
  refine ⟨fun x hx => ?_, fun x hx hne => ⟨x, ?_, rfl⟩, hn.ge⟩
  · rw [h] at hx
    exact ⟨x, (mem_filter.1 hx).1, rfl, rfl⟩
  · rw [h]
    exact mem_filter.2 ⟨hx, by simpa using hne c hc⟩

theorem settleClaim_rest (s : ResyncScheduler) (c : ResyncTarget) (f : ScheduledResync → Option ScheduledResync) :
    (s.settleClaim c f).nextAttempt = s.nextAttempt ∧ (s.settleClaim c f).live = s.live := by
  unfold ResyncScheduler.settleClaim
  split
  · exact ⟨rfl, rfl⟩
  · split
    · exact ⟨rfl, rfl⟩
    · split <;> exact ⟨rfl, rfl⟩

theorem step_held (he : e.isDue = false) : HeldBy e w (w.step e) := by
  cases e with
  | dueTargets => cases he
  | scheduleNow key force now =>
    refine heldBy_of_eq rfl (Nat.le_of_eq ?_)
    dsimp only [Resync.step, ResyncScheduler.scheduleNow]
    split <;> rfl
  | reconsider key now =>
    refine heldBy_of_eq rfl (Nat.le_of_eq ?_)
    dsimp only [Resync.step, ResyncScheduler.reconsider]
    split
    · split <;> rfl
    · rfl
  | peerReachable peer now => exact heldBy_of_eq rfl (Nat.le_refl _)
  | hand c' holder =>
    refine ⟨fun x hx => ?_, fun x hx _ => ⟨_, mem_map_of_mem hx, by split <;> rfl⟩, Nat.le_refl _⟩
    obtain ⟨x₀, hx₀, rfl⟩ := mem_map.1 hx
    exact ⟨x₀, hx₀, by split <;> rfl, by split <;> rfl⟩
  | completeClean c' | completeDirty c' | completeFailed c' =>
    exact heldBy_consume rfl rfl (settleClaim_rest w.scheduler c' _).1
  | release c' =>
    exact heldBy_consume rfl rfl (settleClaim_rest (w.scheduler.endAttempt c'.key c'.attempt).2 c' _).1
  | beginAttempts keys =>
    refine heldBy_of_eq rfl ?_
    dsimp only [Resync.step, ResyncScheduler.beginAttempts]
    split
    · exact Nat.le_succ _
    · exact Nat.le_refl _
  | endAttempt key attempt => exact heldBy_of_eq rfl (Nat.le_refl _)
  | dropAttempts attempt => exact heldBy_of_eq rfl (Nat.le_refl _)

/-- An attempt that owns an entry after the call owned it before, and the entry asks for no less. -/
theorem Change.active {o : Option ScheduledResync} {t' : ScheduledResync} {a : ℕ} (h : Change e k o (some t'))
    (ha : t'.active = some a) :
    ∃ t, o = some t ∧ t.active = some a ∧ t.requested ≤ t'.requested ∧ ∀ c ∈ e.consumes, c.key = k →
      a ≠ c.attempt := by
  cases h with
  | same hr ha' hf hc =>
    rw [ha'] at ha
    exact ⟨_, rfl, ha, hr.ge, fun c hmem hk heq => hc c hmem hk (heq ▸ ha)⟩
  | created ha' => rw [ha'] at ha; cases ha
  | worked hr ha' hf hc =>
    rw [ha'] at ha
    exact ⟨_, rfl, ha, hr.le, by simp [hc]⟩
  | settled hc hk ho ha' => rw [ha'] at ha; cases ha

theorem SchedInv.change (I : SchedInv w)
    (hchange : ∀ k, Change e k w.scheduler.targets[k]? w'.scheduler.targets[k]?)
    (hheld : HeldBy e w w') : SchedInv w' := by
  have howner : ∀ c, w'.Owner c → w.Owner c := by
    rintro c ⟨t', ht', ha'⟩
    have hc := hchange c.key
    rw [ht'] at hc
    obtain ⟨t, ht, ha, -⟩ := hc.active ha'
    exact ⟨t, ht, ha⟩
  refine ⟨fun h hh => ?_, fun h hh h' hh' heq => ?_, fun k t' a ht' ha' => ?_, fun h hh t' ht' ha' => ?_,
    fun h hh => ?_, fun k t' f ht' hf' => ?_, fun h hh h' hh' ho ho' hpeer => ?_⟩
  · obtain ⟨h₀, hh₀, hclaim, -⟩ := hheld.old h hh
    exact hclaim ▸ Nat.lt_of_lt_of_le (I.lt h₀ hh₀) hheld.attempts
  · obtain ⟨h₀, hh₀, hclaim, -⟩ := hheld.old h hh
    obtain ⟨h₁, hh₁, hclaim', -⟩ := hheld.old h' hh'
    rw [← hclaim, ← hclaim'] at heq ⊢
    exact I.unique h₀ hh₀ h₁ hh₁ heq
  · have hc := hchange k
    rw [ht'] at hc
    obtain ⟨t, ht, ha, -, hconsumed⟩ := hc.active ha'
    obtain ⟨h, hh, hkey, hattempt⟩ := I.owned k t a ht ha
    obtain ⟨h', hh', hclaim⟩ := hheld.kept h hh fun c hc heq => hconsumed c hc (heq ▸ hkey) (heq ▸ hattempt.symm)
    exact ⟨h', hh', hclaim ▸ hkey, hclaim ▸ hattempt⟩
  · obtain ⟨h₀, hh₀, hclaim, -⟩ := hheld.old h hh
    rw [← hclaim] at ht' ha' ⊢
    have hc := hchange h₀.claim.key
    rw [ht'] at hc
    obtain ⟨t, ht, ha, hle, -⟩ := hc.active ha'
    exact (I.covers h₀ hh₀ t ht ha).trans hle
  · obtain ⟨h₀, hh₀, hclaim, -⟩ := hheld.old h hh
    exact hclaim ▸ I.marks h₀ hh₀
  · have hc := hchange k
    rw [ht'] at hc
    generalize hw : w.scheduler.targets[k]? = o at hc
    cases hc with
    | same hr ha hf =>
      rw [hf] at hf'
      exact hr ▸ I.force k _ f hw hf'
    | created ha hf => exact hf f hf'
    | worked hr ha hf =>
      rcases hf with hf | hf
      · rw [hf] at hf'
        exact (I.force k _ f hw hf').trans hr.le
      · rw [hf, Option.some.injEq] at hf'
        exact hf'.ge
    | settled hc hk ho ha hr hf =>
      rw [hr]
      rcases hf with hf | hf | hf
      · rw [hf] at hf'
        exact I.force k _ f hw hf'
      · rw [hf, Option.some.injEq] at hf'
        exact hf'.ge
      · rw [hf.2.1] at hf'
        cases hf'
  · obtain ⟨h₀, hh₀, hclaim, hcall⟩ := hheld.old h hh
    obtain ⟨h₁, hh₁, hclaim', hcall'⟩ := hheld.old h' hh'
    rw [← hclaim] at ho hpeer
    rw [← hclaim'] at ho' hpeer
    rw [← hcall, ← hcall']
    exact I.turns h₀ hh₀ h₁ hh₁ (howner _ ho) (howner _ ho') hpeer

/-! ## Claims -/

/-- The attempts of the peer that own an entry were claimed by the current call of `due_targets`. -/
def Turn (w : Resync) (peer : PeerId) : Prop :=
  ∀ h ∈ w.held, w.Owner h.claim → h.claim.key.1 = peer → h.call = w.calls

/-- The entry `t` of a target once it is claimed. -/
def Resync.claimed (w : Resync) (key : ResyncTargetKey) (t : ScheduledResync) : Resync :=
  { w with
    scheduler := {
      targets := w.scheduler.targets.insert key { t with active := some w.scheduler.nextAttempt }
      live := insert (key, w.scheduler.nextAttempt) w.scheduler.live
      nextAttempt := w.scheduler.nextAttempt + 1 }
    held := w.held ++ [⟨⟨key, w.scheduler.nextAttempt, t.requested, t.force⟩, w.calls, .caller⟩] }

/-- What one claim of `due_targets` does. -/
theorem claim_cases (w : Resync) (key : ResyncTargetKey) : w.claim key = w ∨
    ∃ t, w.scheduler.targets[key]? = some t ∧ w.claim key = w.claimed key t := by
  unfold Resync.claim ResyncScheduler.claimTarget
  cases ht : w.scheduler.targets[key]? with
  | none => exact Or.inl rfl
  | some t =>
    dsimp only [bind, Option.bind]
    split
    · rename_i heq
      split at heq
      · cases heq
      · exact Or.inl rfl
    · rename_i heq
      split at heq
      · cases heq
        exact Or.inr ⟨t, rfl, rfl⟩
      · cases heq

theorem SchedInv.claim (I : SchedInv w) {key : ResyncTargetKey} (hturn : Turn w key.1) :
    SchedInv (w.claim key) ∧ ∀ peer, Turn w peer → Turn (w.claim key) peer := by
  rcases claim_cases w key with h | ⟨t, ht, h⟩
  · rw [h]
    exact ⟨I, fun _ hp => hp⟩
  rw [h]
  set w' := w.claimed key t with hw'
  have hget : ∀ k, w'.scheduler.targets[k]? = if key = k then
    some { t with active := some w.scheduler.nextAttempt } else w.scheduler.targets[k]? :=
    fun k => BTreeMap.getElem?_insert
  have hmem : ∀ h ∈ w'.held, h ∈ w.held ∨
      h = ⟨⟨key, w.scheduler.nextAttempt, t.requested, t.force⟩, w.calls, .caller⟩ := by
    intro h hh
    simpa [hw', Resync.claimed] using hh
  -- an older claim owns what it owned, and not the entry claimed now
  have hold : ∀ h ∈ w.held, w'.Owner h.claim → w.Owner h.claim := by
    rintro h hh ⟨t', ht', ha'⟩
    rw [hget] at ht'
    split at ht'
    · cases ht'
      have := I.lt h hh
      rw [Option.some.injEq] at ha'
      omega
    · exact ⟨t', ht', ha'⟩
  refine ⟨⟨?_, ?_, ?_, ?_, ?_, ?_, ?_⟩, ?_⟩
  · intro h hh
    rcases hmem h hh with hh | rfl
    · exact Nat.lt_succ_of_lt (I.lt h hh)
    · exact Nat.lt_succ_self _
  · intro h hh h' hh' heq
    rcases hmem h hh with hh | rfl <;> rcases hmem h' hh' with hh' | rfl
    · exact I.unique h hh h' hh' heq
    · exact absurd heq (I.lt h hh).ne
    · exact absurd heq (I.lt h' hh').ne'
    · rfl
  · intro k t' a ht' ha'
    rw [hget] at ht'
    split at ht'
    · rename_i hk
      cases ht'
      exact ⟨_, mem_append_right _ mem_cons_self, hk, Option.some.inj ha'⟩
    · obtain ⟨h, hh, hkey, hattempt⟩ := I.owned k t' a ht' ha'
      exact ⟨h, mem_append_left _ hh, hkey, hattempt⟩
  · intro h hh t' ht' ha'
    rcases hmem h hh with hh | rfl
    · rw [hget] at ht'
      split at ht'
      · cases ht'
        have := I.lt h hh
        rw [Option.some.injEq] at ha'
        omega
      · exact I.covers h hh t' ht' ha'
    · rw [hget, if_pos rfl] at ht'
      cases ht'
      exact Nat.le_refl _
  · intro h hh f hf
    rcases hmem h hh with hh | rfl
    · exact I.marks h hh f hf
    · exact I.force key t f ht hf
  · intro k t' f ht' hf'
    rw [hget] at ht'
    split at ht'
    · cases ht'
      exact I.force key t f ht hf'
    · exact I.force k t' f ht' hf'
  · intro h hh h' hh' ho ho' hpeer
    rcases hmem h hh with hh | rfl <;> rcases hmem h' hh' with hh' | rfl
    · exact I.turns h hh h' hh' (hold h hh ho) (hold h' hh' ho') hpeer
    · exact hturn h hh (hold h hh ho) hpeer
    · exact (hturn h' hh' (hold h' hh' ho') hpeer.symm).symm
    · rfl
  · intro peer hpeer h hh ho hp
    rcases hmem h hh with hh | rfl
    · exact hpeer h hh (hold h hh ho) hp
    · rfl

/-- A peer that takes its turn has no target to claim. -/
theorem dueKeys_free {s : ResyncScheduler} {maxPeers maxTargets now : ℕ} :
    ∀ key ∈ s.dueKeys maxPeers maxTargets now, key.1 ∉ s.busyPeers := by
  have hready : ∀ key ∈ (s.readyTargets now).map Prod.snd, key.1 ∉ s.busyPeers := by
    intro key hkey
    obtain ⟨e, he, rfl⟩ := mem_map.1 hkey
    unfold ResyncScheduler.readyTargets at he
    rw [mem_mergeSort] at he
    obtain ⟨x, hx, rfl⟩ := mem_map.1 he
    have := (mem_filter.1 hx).2
    simp only [decide_eq_true_eq] at this
    exact this.2.2
  -- the turns hold nothing but ready targets
  have hturns : ∀ (l : List ResyncTargetKey) (due : BTreeMap PeerId (List ResyncTargetKey)),
    (∀ key ∈ l, key.1 ∉ s.busyPeers) →
      (∀ (p : PeerId) (keys : List ResyncTargetKey), due[p]? = some keys → ∀ key ∈ keys, key.1 ∉ s.busyPeers) →
      ∀ (p : PeerId) (keys : List ResyncTargetKey),
        (l.foldl (ResyncScheduler.joinTurn maxPeers maxTargets) due)[p]? = some keys →
          ∀ key ∈ keys, key.1 ∉ s.busyPeers := by
    intro l
    induction l with
    | nil => exact fun due _ hdue => hdue
    | cons key l ih =>
      intro due hl hdue
      refine ih _ (fun key' hkey' => hl key' (mem_cons_of_mem _ hkey')) fun p keys hp => ?_
      have hkey := hl key mem_cons_self
      unfold ResyncScheduler.joinTurn at hp
      split at hp
      · rename_i keys' hkeys'
        split at hp
        · rcases BTreeMap.of_getElem?_insert hp with ⟨-, rfl⟩ | ⟨-, hp⟩
          · exact forall_mem_append.2 ⟨hdue _ keys' hkeys', by simpa using hkey⟩
          · exact hdue p keys hp
        · exact hdue p keys hp
      · split at hp
        · rcases BTreeMap.of_getElem?_insert hp with ⟨-, rfl⟩ | ⟨-, hp⟩
          · simpa using hkey
          · exact hdue p keys hp
        · exact hdue p keys hp
  intro key hkey
  obtain ⟨⟨p, keys⟩, he, hmem⟩ := mem_flatMap.1 hkey
  exact hturns _ ∅ hready (by simp) p keys (ExtTreeMap.mem_toList_iff_getElem?_eq_some.1 he) key hmem

theorem claims_induction {P : Resync → Prop} {keys : List ResyncTargetKey}
    (hclaim : ∀ w key, key ∈ keys → P w → P (w.claim key)) (h : P w) :
    P (keys.foldl Resync.claim w) := by
  induction keys generalizing w with
  | nil => exact h
  | cons key keys ih => exact ih (fun w k hk => hclaim w k (mem_cons_of_mem _ hk)) (hclaim w key mem_cons_self h)

/-- **Any call keeps the ownership of claims.** -/
theorem SchedInv.step (I : SchedInv w) (hallowed : w.Allowed e) : SchedInv (w.step e) := by
  cases he : e.isDue with
  | false => exact I.change (step_change he hallowed) (step_held he)
  | true =>
    cases e with
    | dueTargets maxPeers maxTargets now =>
      have hstart : SchedInv { w with calls := w.calls + 1 } := ⟨I.lt, I.unique, I.owned, I.covers, I.marks,
        I.force, I.turns⟩
      have hfree : ∀ key ∈ w.scheduler.dueKeys maxPeers maxTargets now, Turn
          { w with calls := w.calls + 1 } key.1 := by
        rintro key hkey h hh ⟨t, ht, ha⟩ hpeer
        refine absurd ?_ (dueKeys_free key hkey)
        rw [← hpeer]
        refine mem_map.2 ⟨(h.claim.key, t), mem_filter.2 ⟨ExtTreeMap.mem_toList_iff_getElem?_eq_some.2 ht, ?_⟩,
          rfl⟩
        dsimp only
        rw [ha]
        rfl
      have hrun := claims_induction
        (P := fun w' => SchedInv w' ∧ ∀ key ∈ w.scheduler.dueKeys maxPeers maxTargets now, Turn w' key.1)
        (fun w' key hkey h => ⟨(h.1.claim (h.2 key hkey)).1, fun key' hkey' =>
          (h.1.claim (h.2 key hkey)).2 _ (h.2 key' hkey')⟩) ⟨hstart, hfree⟩
      exact hrun.1
    | _ => cases he

theorem SchedInv.empty : SchedInv {} := by
  refine ⟨?_, ?_, ?_, ?_, ?_, ?_, ?_⟩ <;> simp

/-! ## Requests that wait -/

/-- A request waits for an attempt that is `first` or later: the entry asks for `mark` or more, an older
attempt that owns it covers less, and a forced request left a mark of its own. -/
structure Pending (first mark : ℕ) (k : ResyncTargetKey) (forced : Bool) (w : Resync) : Prop where
  le : first ≤ w.scheduler.nextAttempt
  entry : ∃ t, w.scheduler.targets[k]? = some t ∧ mark ≤ t.requested ∧
    (∀ h ∈ w.held, h.claim.key = k → t.active = some h.claim.attempt → h.claim.attempt < first →
      h.claim.covered < mark) ∧
    (forced = true → ∃ f, t.force = some f ∧ mark ≤ f)

variable {first mark : ℕ} {forced : Bool}

theorem Pending.schedule (I : SchedInv w) {now : ℕ} (hallowed : w.Allowed (.scheduleNow k forced now)) :
    ∃ mark, Pending w.scheduler.nextAttempt mark k forced (w.step (.scheduleNow k forced now)) := by
  dsimp only [Resync.step, ResyncScheduler.scheduleNow]
  cases ht : w.scheduler.targets[k]? with
  | none =>
    refine ⟨1, Nat.le_refl _, _, BTreeMap.getElem?_insert.trans (if_pos rfl), Nat.le_refl _, ?_, ?_⟩
    · intro h hh hk ha
      cases ha
    · rintro rfl
      exact ⟨1, rfl, Nat.le_refl _⟩
  | some t =>
    have hlt := hallowed t ht
    have hadd : saturatingAdd t.requested 1 = t.requested + 1 := by
      unfold saturatingAdd
      omega
    refine ⟨t.requested + 1, Nat.le_refl _, _, BTreeMap.getElem?_insert.trans (if_pos rfl), hadd.ge, ?_, ?_⟩
    · intro h hh hk ha _
      subst hk
      exact Nat.lt_succ_of_le (I.covers h hh t ht ha)
    · rintro rfl
      exact ⟨_, rfl, hadd.ge⟩

theorem Pending.claim (P : Pending first mark k forced w) {key : ResyncTargetKey} :
    Pending first mark k forced (w.claim key) := by
  rcases claim_cases w key with h | ⟨t, ht, h⟩
  · rwa [h]
  rw [h]
  obtain ⟨t₀, ht₀, hmark, howner, hforce⟩ := P.entry
  have hle := P.le
  refine ⟨Nat.le_succ_of_le hle, ?_⟩
  by_cases hk : key = k
  · -- the entry's owner is the claim made now, whose attempt is not an older one
    subst hk
    rw [ht] at ht₀
    cases ht₀
    refine ⟨_, BTreeMap.getElem?_insert.trans (if_pos rfl), hmark, fun h' _ _ ha hlt => ?_, hforce⟩
    rw [Option.some.injEq] at ha
    omega
  · refine ⟨t₀, (BTreeMap.getElem?_insert.trans (if_neg hk)).trans ht₀, hmark,
      fun h' hh' hk' ha hlt => ?_, hforce⟩
    rcases mem_append.1 hh' with hh' | hh'
    · exact howner h' hh' hk' ha hlt
    · rw [mem_singleton.1 hh'] at hk'
      exact absurd hk' hk

/-- A completion or release of an attempt that owns its entry consumes a claim that is held. -/
theorem Resync.Allowed.held (hallowed : w.Allowed e) (hc : c ∈ e.consumes) (ho : w.Owner c) :
    ∃ h ∈ w.held, h.claim = c := by
  have hholds : ∀ holder, w.holds c holder → ∃ h ∈ w.held, h.claim = c := by
    rintro holder ⟨h, hh, hclaim, -⟩
    exact ⟨h, hh, hclaim⟩
  have hcompletion : w.holds c .completion ∨ ¬ w.Owner c → ∃ h ∈ w.held, h.claim = c :=
    fun h => h.elim (hholds _) fun hno => absurd ho hno
  cases e with
  | completeClean | completeDirty | completeFailed =>
    cases hc
    exact hcompletion hallowed
  | release c' after now =>
    cases hc
    rcases hallowed with h | h | h
    · exact hholds _ h
    · exact hholds _ h
    · exact absurd ho h
  | _ => cases hc

/-- The completion ends a request, forced or not: a clean one any, a dirty one the force. -/
def ResyncEvent.Serves (e : ResyncEvent) (forced : Bool) (c : ResyncTarget) : Prop :=
  e.Cleans c ∨ forced = true ∧ e.Finishes c

/-- **A waiting request is kept, or served by an attempt claimed after it.** -/
theorem Pending.step (P : Pending first mark k forced w) (I : SchedInv w) (hallowed : w.Allowed e) :
    Pending first mark k forced (w.step e) ∨ ∃ c, c.key = k ∧ first ≤ c.attempt ∧ w.Owner c ∧
      e.Serves forced c := by
  cases he : e.isDue with
  | true =>
    cases e with
    | dueTargets maxPeers maxTargets now =>
      left
      exact claims_induction (fun w' key _ h => h.claim) ⟨P.le, P.entry⟩
    | _ => cases he
  | false =>
    have hheld := step_held (w := w) he
    have hle := P.le.trans hheld.attempts
    obtain ⟨t, ht, hmark, howner, hforce⟩ := P.entry
    have hown : ∀ c, c.key = k → t.active = some c.attempt → w.Owner c := fun c hk ha => ⟨t, hk ▸ ht, ha⟩
    -- an attempt that covers the mark was claimed after the request
    have hlate : ∀ c ∈ e.consumes, c.key = k → t.active = some c.attempt → mark ≤ c.covered →
        first ≤ c.attempt := by
      intro c hc hk ha hcov
      obtain ⟨h, hh, rfl⟩ := hallowed.held hc (hown c hk ha)
      by_contra hlt
      have := howner h hh hk ha (Nat.lt_of_not_le hlt)
      omega
    have hchange := step_change he hallowed k
    rw [ht] at hchange
    generalize hw : (w.step e).scheduler.targets[k]? = o at hchange
    have holder : ∀ t' : ScheduledResync, t'.active = t.active → ∀ h ∈ (w.step e).held, h.claim.key = k →
      t'.active = some h.claim.attempt →
        h.claim.attempt < first → h.claim.covered < mark := by
      intro t' hact h hh hk ha hlt
      obtain ⟨h₀, hh₀, hclaim, -⟩ := hheld.old h hh
      rw [← hclaim] at hk ha hlt ⊢
      exact howner h₀ hh₀ hk (hact ▸ ha) hlt
    cases hchange with
    | same hr ha hf hc =>
      refine Or.inl ⟨hle, _, hw, hr ▸ hmark, holder _ ha, fun h => ?_⟩
      rw [hf]
      exact hforce h
    | worked hr ha hf hc =>
      refine Or.inl ⟨hle, _, hw, hmark.trans hr.le, holder _ ha, fun h => ?_⟩
      rcases hf with hf | hf <;> rw [hf]
      · exact hforce h
      · exact ⟨_, rfl, hmark.trans hr.le⟩
    | @settled _ t' c hc hk ho ha hr hf =>
      have hnone : ∀ h ∈ (w.step e).held, h.claim.key = k → t'.active = some h.claim.attempt →
          h.claim.attempt < first → h.claim.covered < mark := by
        intro h _ _ ha'
        rw [ha] at ha'
        cases ha'
      rcases hf with hf | hf | ⟨hf, hf', hfin⟩
      · refine Or.inl ⟨hle, _, hw, hr ▸ hmark, hnone, fun h => ?_⟩
        rw [hf]
        exact hforce h
      · exact Or.inl ⟨hle, _, hw, hr ▸ hmark, hnone, fun _ => ⟨_, hf, hmark⟩⟩
      · cases forced with
        | false => exact Or.inl ⟨hle, _, hw, hr ▸ hmark, hnone, fun h => by cases h⟩
        | true =>
          obtain ⟨f, hf'', hfmark⟩ := hforce rfl
          obtain ⟨h, hh, rfl⟩ := hallowed.held hc (hown _ hk ho)
          have hcov := I.marks h hh f (hf.symm.trans hf'')
          exact Or.inr ⟨_, hk, hlate _ hc hk ho (hfmark.trans hcov), hown _ hk ho, Or.inr ⟨rfl, hfin⟩⟩
    | removed hc hk ho hr hf hclean =>
      exact Or.inr ⟨_, hk, hlate _ hc hk ho (hr ▸ hmark), hown _ hk ho, Or.inl hclean⟩

/-! ## Live attempts -/

/-- An attempt that was ended is live no more, and its id is not given out again. -/
structure LiveInv (w : Resync) : Prop where
  live : ∀ x ∈ w.scheduler.live, x.2 < w.scheduler.nextAttempt
  ended : ∀ x ∈ w.ended, x.2 < w.scheduler.nextAttempt
  apart : ∀ x ∈ w.ended, x ∉ w.scheduler.live
  nodup : w.ended.Nodup

theorem LiveInv.of_eq (L : LiveInv w) (hlive : w'.scheduler.live = w.scheduler.live)
    (hnext : w'.scheduler.nextAttempt = w.scheduler.nextAttempt) (hended : w'.ended = w.ended) : LiveInv w' := by
  constructor <;> simp only [hlive, hnext, hended]
  · exact L.live
  · exact L.ended
  · exact L.apart
  · exact L.nodup

/-- New attempts take the next id. -/
theorem LiveInv.extend (L : LiveInv w) (new : Finset (ResyncTargetKey × ℕ))
    (hnew : ∀ x ∈ new, x.2 = w.scheduler.nextAttempt) (hlive : w'.scheduler.live = w.scheduler.live ∪ new)
    (hnext : w'.scheduler.nextAttempt = w.scheduler.nextAttempt + 1)
    (hended : w'.ended = w.ended) : LiveInv w' := by
  refine ⟨?_, ?_, ?_, hended ▸ L.nodup⟩
  · intro x hx
    rw [hlive, Finset.mem_union] at hx
    rw [hnext]
    rcases hx with hx | hx
    · exact Nat.lt_succ_of_lt (L.live x hx)
    · exact hnew x hx ▸ Nat.lt_succ_self _
  · intro x hx
    rw [hended] at hx
    rw [hnext]
    exact Nat.lt_succ_of_lt (L.ended x hx)
  · intro x hx
    rw [hended] at hx
    rw [hlive, Finset.mem_union, not_or]
    exact ⟨L.apart x hx, fun hmem => (L.ended x hx).ne (hnew x hmem)⟩

theorem LiveInv.end (L : LiveInv w) (key : ResyncTargetKey) (attempt : ℕ)
    (hlive : w'.scheduler.live = w.scheduler.live.erase (key, attempt)) (hnext : w'.scheduler.nextAttempt =
      w.scheduler.nextAttempt) (hended : w'.ended = w.note key attempt) : LiveInv w' := by
  have hcases : w'.ended = w.ended ∨ (key, attempt) ∈ w.scheduler.live ∧
      w'.ended = w.ended ++ [(key, attempt)] := by
    rw [hended]
    unfold Resync.note ResyncScheduler.endAttempt
    split
    · rename_i h
      exact Or.inr ⟨of_decide_eq_true h, rfl⟩
    · exact Or.inl rfl
  have hmem : ∀ x ∈ w'.ended, x ∈ w.ended ∨ x = (key, attempt) ∧ x ∈ w.scheduler.live := by
    intro x hx
    rcases hcases with h | ⟨hl, h⟩ <;> rw [h] at hx
    · exact Or.inl hx
    · rcases mem_append.1 hx with hx | hx
      · exact Or.inl hx
      · rw [mem_singleton.1 hx]
        exact Or.inr ⟨rfl, hl⟩
  refine ⟨?_, ?_, ?_, ?_⟩
  · intro x hx
    rw [hlive] at hx
    exact hnext ▸ L.live x (Finset.mem_of_mem_erase hx)
  · intro x hx
    rw [hnext]
    rcases hmem x hx with hx | ⟨-, hx⟩
    · exact L.ended x hx
    · exact L.live x hx
  · intro x hx
    rw [hlive]
    rcases hmem x hx with hx | ⟨rfl, -⟩
    · exact fun h => L.apart x hx (Finset.mem_of_mem_erase h)
    · exact Finset.notMem_erase _ _
  · rcases hcases with h | ⟨hl, h⟩ <;> rw [h]
    · exact L.nodup
    · refine nodup_append.2 ⟨L.nodup, nodup_singleton _, fun a ha b hb hab => ?_⟩
      rw [mem_singleton] at hb
      exact L.apart a ha (hab.trans hb ▸ hl)

theorem LiveInv.claim (L : LiveInv w) {key : ResyncTargetKey} : LiveInv (w.claim key) := by
  rcases claim_cases w key with h | ⟨t, -, h⟩
  · rwa [h]
  · rw [h]
    exact L.extend {(key, w.scheduler.nextAttempt)} (by simp)
      (by rw [Resync.claimed, Finset.insert_eq, Finset.union_comm]) rfl rfl

theorem LiveInv.step (L : LiveInv w) : LiveInv (w.step e) := by
  cases e with
  | scheduleNow key force now =>
    refine L.of_eq ?_ ?_ rfl <;> (dsimp only [Resync.step, ResyncScheduler.scheduleNow]; split <;> rfl)
  | reconsider key now =>
    refine L.of_eq ?_ ?_ rfl <;>
      (dsimp only [Resync.step, ResyncScheduler.reconsider]; split <;> [split; skip] <;> rfl)
  | peerReachable peer now => exact L.of_eq rfl rfl rfl
  | dueTargets maxPeers maxTargets now => exact claims_induction (fun _ _ _ h => h.claim) (L.of_eq rfl rfl rfl)
  | hand c' holder => exact L.of_eq rfl rfl rfl
  | completeClean c' | completeDirty c' | completeFailed c' =>
    exact L.of_eq (settleClaim_rest w.scheduler c' _).2 (settleClaim_rest w.scheduler c' _).1 rfl
  | release c' =>
    have hrest := fun f => settleClaim_rest (w.scheduler.endAttempt c'.key c'.attempt).2 c' f
    exact L.end c'.key c'.attempt (hrest _).2 (hrest _).1 rfl
  | beginAttempts keys =>
    dsimp only [Resync.step, ResyncScheduler.beginAttempts]
    split
    · refine L.extend (keys.map fun key => (key, w.scheduler.nextAttempt)).toFinset (fun x hx => ?_) rfl rfl rfl
      obtain ⟨key, -, rfl⟩ := mem_map.1 (mem_toFinset.1 hx)
      rfl
    · exact L
  | endAttempt key attempt => exact L.end key attempt rfl rfl rfl
  | dropAttempts attempt =>
    refine ⟨fun x hx => L.live x (Finset.mem_filter.1 hx).1, L.ended, fun x hx hmem => ?_, L.nodup⟩
    exact L.apart x hx (Finset.mem_filter.1 hmem).1

/-! ## Runs -/

theorem Resync.Valid.append {pre post : List ResyncEvent} (h : w.Valid (pre ++ post)) :
    w.Valid pre ∧ (w.run pre).Valid post := by
  induction pre generalizing w with
  | nil => exact ⟨trivial, h⟩
  | cons e pre ih => exact ⟨⟨h.1, (ih h.2).1⟩, (ih h.2).2⟩

theorem SchedInv.run (I : SchedInv w) {events : List ResyncEvent} (h : w.Valid events) :
    SchedInv (w.run events) := by
  induction events generalizing w with
  | nil => exact I
  | cons e events ih => exact ih (I.step h.1) h.2

theorem LiveInv.run (L : LiveInv w) (events : List ResyncEvent) : LiveInv (w.run events) := by
  induction events generalizing w with
  | nil => exact L
  | cons e events ih => exact ih L.step

/-- Along the run an attempt that is `first` or later owned the target and ended with such a completion. -/
def Resync.Served (w : Resync) (events : List ResyncEvent) (ends : ResyncEvent → ResyncTarget → Prop)
    (k : ResyncTargetKey) (first : ℕ) : Prop :=
  ∃ before e after c, events = before ++ e :: after ∧ c.key = k ∧ first ≤ c.attempt ∧
    (w.run before).Owner c ∧ ends e c

theorem Pending.run (P : Pending first mark k forced w) (I : SchedInv w) {events : List ResyncEvent}
    (h : w.Valid events) :
    Pending first mark k forced (w.run events) ∨ w.Served events (fun e c => e.Serves forced c) k first := by
  induction events generalizing w with
  | nil => exact Or.inl P
  | cons e events ih =>
    rcases P.step I h.1 with P' | ⟨c, hk, hle, ho, hserves⟩
    · rcases ih P' (I.step h.1) h.2 with hrun | ⟨before, e', after, c, rfl, hrest⟩
      · exact Or.inl hrun
      · exact Or.inr ⟨e :: before, e', after, c, rfl, hrest⟩
    · exact Or.inr ⟨[], e, events, c, rfl, hk, hle, ho, hserves⟩

theorem settleClaim_stranger {s : ResyncScheduler}
    (h : ∀ t, s.targets[c.key]? = some t → t.active ≠ some c.attempt)
    (f : ScheduledResync → Option ScheduledResync) : s.settleClaim c f = s := by
  unfold ResyncScheduler.settleClaim
  split
  · rfl
  · rename_i t ht
    exact if_pos (h t ht)

/-- **No interleaving of the scheduler's calls loses work.** After `schedule_now` the target has an entry until an
attempt claimed later completes clean, and a force mark until such an attempt completes clean or dirty. An attempt
that does not own the entry changes nothing but its own registration. An entry is active only while its claim is
held, the active entries of a peer come from one call of `due_targets`, and no attempt ends twice. -/
theorem resync_loses_no_work {events : List ResyncEvent} (hvalid : Resync.Valid {} events) :
    (∀ pre post key force now, events = pre ++ .scheduleNow key force now :: post →
      ((∃ t, (Resync.run {} events).scheduler.targets[key]? = some t) ∨
        (Resync.run {} (pre ++ [.scheduleNow key force now])).Served post ResyncEvent.Cleans key
          (Resync.run {} pre).scheduler.nextAttempt) ∧
      (force = true → (∃ t f, (Resync.run {} events).scheduler.targets[key]? = some t ∧ t.force = some f) ∨
        (Resync.run {} (pre ++ [.scheduleNow key force now])).Served post ResyncEvent.Finishes key
          (Resync.run {} pre).scheduler.nextAttempt)) ∧
    (∀ (s : ResyncScheduler) (c : ResyncTarget), (∀ t, s.targets[c.key]? = some t → t.active ≠ some c.attempt) →
      ∀ after initial max now, s.completeClean c now = s ∧ s.completeDirty c after now = s ∧
        s.completeFailed c initial max now = s ∧
      s.releaseClaim c after now = (s.endAttempt c.key c.attempt).2) ∧
    (∀ (k : ResyncTargetKey) (t : ScheduledResync) a, (Resync.run {} events).scheduler.targets[k]? = some t →
      t.active = some a → ∃ h ∈ (Resync.run {} events).held, h.claim.key = k ∧ h.claim.attempt = a) ∧
    (∀ h ∈ (Resync.run {} events).held, ∀ h' ∈ (Resync.run {} events).held, (Resync.run {} events).Owner h.claim →
      (Resync.run {} events).Owner h'.claim → h.claim.key.1 = h'.claim.key.1 → h.call = h'.call) ∧
    (Resync.run {} events).ended.Nodup := by
  have I : SchedInv (Resync.run {} events) := SchedInv.empty.run hvalid
  have hwaits : ∀ pre post key force now, events = pre ++ .scheduleNow key force now :: post →
      ∀ forced, (forced = true → force = true) →
        ∃ mark, Pending (Resync.run {} pre).scheduler.nextAttempt mark key forced (Resync.run {} events) ∨
        (Resync.run {} (pre ++ [.scheduleNow key force now])).Served post (fun e c => e.Serves forced c) key
        (Resync.run {} pre).scheduler.nextAttempt := by
    rintro pre post key force now rfl forced hforced
    obtain ⟨hpre, hallowed, hpost⟩ := hvalid.append
    have Ipre : SchedInv (Resync.run {} pre) := SchedInv.empty.run hpre
    obtain ⟨mark, P⟩ := Pending.schedule Ipre hallowed
    have P' : Pending (Resync.run {} pre).scheduler.nextAttempt mark key forced
        ((Resync.run {} pre).step (.scheduleNow key force now)) := by
      obtain ⟨t, ht, hmark, howner, hforce⟩ := P.entry
      exact ⟨P.le, t, ht, hmark, howner, fun h => hforce (hforced h)⟩
    have hrun := P'.run (Ipre.step hallowed) hpost
    unfold Resync.run at hrun ⊢
    rw [foldl_append, foldl_append]
    exact ⟨mark, hrun⟩
  refine ⟨fun pre post key force now heq => ⟨?_, fun hforce => ?_⟩, fun s c hno after initial max now => ?_,
    I.owned, I.turns, ?_⟩
  · obtain ⟨mark, P | ⟨before, e, after, c, hpost, hk, hle, ho, hserves⟩⟩ :=
      hwaits pre post key force now heq false (fun h => by cases h)
    · obtain ⟨t, ht, -⟩ := P.entry
      exact Or.inl ⟨t, ht⟩
    · exact Or.inr ⟨before, e, after, c, hpost, hk, hle, ho, hserves.elim id fun h => by cases h.1⟩
  · obtain ⟨mark, P | ⟨before, e, after, c, hpost, hk, hle, ho, hserves⟩⟩ :=
      hwaits pre post key force now heq true fun _ => hforce
    · obtain ⟨t, ht, -, -, hf⟩ := P.entry
      obtain ⟨f, hf, -⟩ := hf rfl
      exact Or.inl ⟨t, f, ht, hf⟩
    · exact Or.inr ⟨before, e, after, c, hpost, hk, hle, ho, hserves.elim Or.inl fun h => h.2⟩
  · exact ⟨settleClaim_stranger hno _, settleClaim_stranger hno _, settleClaim_stranger hno _,
      settleClaim_stranger (s := (s.endAttempt c.key c.attempt).2) hno _⟩
  · have L : LiveInv {} := ⟨by simp, by simp, by simp, nodup_nil⟩
    exact (L.run events).nodup

/-- The target of the calls below, and its first claim. -/
def resyncKey : ResyncTargetKey := (IdType.ofNat 1, IdType.ofNat 2)
/-- The first claim of the target. -/
def firstClaim : ResyncTarget := ⟨resyncKey, 1, 1, some 1⟩

/-- A forced request is claimed and completed clean. -/
def completedCalls : List ResyncEvent :=
  [.scheduleNow resyncKey true 0, .dueTargets 1 1 5, .hand firstClaim .lease, .hand firstClaim .guard,
    .hand firstClaim .completion, .completeClean firstClaim 6]

/-- The entry is created again and claimed, and the first claim comes back. -/
def staleCalls : List ResyncEvent := completedCalls ++
  [.scheduleNow resyncKey true 7, .dueTargets 1 1 9, .completeClean firstClaim 10]

/-- A clean completion ends the work of its claim, and a stale one ends none: the new entry keeps its mark. -/
theorem resync_loses_no_work_claimed :
    (Resync.run {} completedCalls).scheduler.targets.isEmpty = true ∧ (Resync.run {} staleCalls).held.length = 1 ∧
    ∃ t f, (Resync.run {} staleCalls).scheduler.targets[resyncKey]? = some t ∧ t.force = some f := by
  have hempty : (Resync.run {} completedCalls).scheduler.targets.isEmpty = true := by decide +kernel
  refine ⟨hempty, by decide +kernel, ?_⟩
  have hstale : ¬ (Resync.run {} (staleCalls.take 8)).Owner firstClaim := by
    rintro ⟨t, ht, ha⟩
    have hactive : (Resync.run {} (staleCalls.take 8)).scheduler.targets[resyncKey]?.map (·.active) =
        some (some 2) := by
      decide +kernel
    rw [show (Resync.run {} (staleCalls.take 8)).scheduler.targets[resyncKey]? = some t from ht, Option.map_some,
      ha] at hactive
    cases hactive
  have hvalid : Resync.Valid {} staleCalls := by
    refine ⟨fun t ht => by simp at ht, trivial, ?_, ?_, ?_, Or.inl ?_, fun t ht => ?_, trivial,
      Or.inr hstale, trivial⟩
    · exact ⟨⟨firstClaim, 1, .caller⟩, by decide +kernel, rfl, rfl⟩
    · exact ⟨⟨firstClaim, 1, .lease⟩, by decide +kernel, rfl, rfl⟩
    · exact ⟨⟨firstClaim, 1, .guard⟩, by decide +kernel, rfl, rfl⟩
    · exact ⟨⟨firstClaim, 1, .completion⟩, by decide +kernel, rfl, rfl⟩
    · change (Resync.run {} completedCalls).scheduler.targets[resyncKey]? = some t at ht
      simp [ExtTreeMap.isEmpty_iff.1 hempty] at ht
  rcases ((resync_loses_no_work hvalid).1 completedCalls _ _ _ _ rfl).2 rfl with
    h | ⟨before, e, after, c, heq, -, hle, -, hends⟩
  · exact h
  · -- the only later completion is of an earlier attempt
    have he : e ∈ [ResyncEvent.dueTargets 1 1 9, .completeClean firstClaim 10] :=
      heq ▸ mem_append_right _ mem_cons_self
    have hnext : (Resync.run {} completedCalls).scheduler.nextAttempt = 2 := by decide +kernel
    rw [hnext] at hle
    rcases hends with ⟨now, rfl⟩ | ⟨after', now, rfl⟩
    · cases he with
      | tail _ he => cases mem_singleton.1 he; exact absurd hle (by decide)
    · simp at he

end Irokle
