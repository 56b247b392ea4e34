import Irokle.Spec.Goal

/-!
# Goal progress counts positions, as long as the sums fit

The counts of `goal_progress` are exact when the sequences of the goal's clocks sum up below `2^64`. A
peer's summary may name any sequences, and from `2^64` on the sum wraps or panics.

* `goalExact_iff` — the counts decide what is reached and what grew exactly when neither clock of the goal
  sums up to `2^64`.
* `wrapGoal_reached` — two positions of `2^63` each count as none, and an empty clock reaches them.
-/

namespace Irokle

open Std List ExtTreeMap

variable {goal : TopicGoal} {clock clock' target : ActorClock} {reads : GoalReads} {p : GoalProgress}

/-! ## What a measurement reads -/

namespace GoalReads

/-- The view, while the goal's branch is the active one. -/
def active (reads : GoalReads) (goal : TopicGoal) : Option GoalView :=
  reads.view.filter fun view => decide (goal.replaces ≠ some view.genesis ∧ goal.genesis = some view.genesis)

/-- The local clock, empty while the goal's branch is not active. -/
def localClock (reads : GoalReads) (goal : TopicGoal) : ActorClock := ((reads.active goal).map (·.clock)).getD ∅

/-- What the peer certified of the goal's branch. -/
def certifiedClock (reads : GoalReads) (goal : TopicGoal) : ActorClock :=
  ((reads.active goal).bind fun view =>
    (view.ack.filter fun ack => decide (ack.genesis = some view.genesis)).map (·.clock)).getD ∅

/-- The holes left on the goal's branch. -/
def holesLeft (reads : GoalReads) (goal : TopicGoal) : ℕ := ((reads.active goal).map (·.unresolved.size)).getD 0

/-- The staged positions: this node's own for a pull, the peer's receipts for a push. -/
def stagedPositions (reads : GoalReads) (goal : TopicGoal) : ActorClock :=
  if reads.view.isNone then reads.stagedClock else if (reads.active goal).isSome then
    reads.receiptClock.getD ∅ else ∅

/-- The clock of the goal that staged positions count toward. -/
def stagedTarget (reads : GoalReads) (goal : TopicGoal) : ActorClock :=
  if reads.view.isNone then goal.inbound else goal.outbound

end GoalReads

/-- A position of `target` that `clock'` covers and `clock` does not. -/
def NewlyCovered (clock clock' target : ActorClock) : Prop :=
  ∃ a s, 1 ≤ s ∧ s ≤ target.get a ∧ clock.get a < s ∧ s ≤ clock'.get a

/-- The clock `clock'` has every position of `clock`. -/
def Extends (clock clock' : ActorClock) : Prop := ∀ a, clock.get a ≤ clock'.get a

/-- **The counts of a goal are exact**: no sum overflows, a goal is reached when nothing of it is missing, and
a count grows when a position became newly covered. -/
structure GoalExact (goal : TopicGoal) : Prop where
  noOverflow : ∀ clock, (coveredChecked clock goal.inbound).isSome ∧ (coveredChecked clock goal.outbound).isSome
  reached : ∀ reads p, goalProgress reads goal = .ok p → (p.reached goal = true ↔
    (reads.localClock goal).dominates goal.inbound = true ∧
    (reads.certifiedClock goal).dominates goal.outbound = true ∧
      reads.holesLeft goal = 0)
  inbound : ∀ reads reads' p p', goalProgress reads goal = .ok p → goalProgress reads' goal = .ok p' →
    Extends (reads.localClock goal) (reads'.localClock goal) →
      (p.inbound < p'.inbound ↔ NewlyCovered (reads.localClock goal) (reads'.localClock goal) goal.inbound)
  outbound : ∀ reads reads' p p', goalProgress reads goal = .ok p → goalProgress reads' goal = .ok p' →
    Extends (reads.certifiedClock goal) (reads'.certifiedClock goal) →
      (p.outbound < p'.outbound ↔ NewlyCovered (reads.certifiedClock goal)
        (reads'.certifiedClock goal) goal.outbound)
  staged : ∀ reads reads' p p', goalProgress reads goal = .ok p → goalProgress reads' goal = .ok p' →
    reads.view.isNone = reads'.view.isNone → Extends (reads.stagedPositions goal) (reads'.stagedPositions goal) →
      (p.staged < p'.staged ↔ NewlyCovered (reads.stagedPositions goal) (reads'.stagedPositions goal)
        (reads.stagedTarget goal))

/-- The sum of the sequences of a clock. -/
def seqSum (clock : ActorClock) : ℕ := (clock.toList.map Prod.snd).sum

/-! ## Sums -/

theorem foldl_wrapping {l : List ℕ} {acc : ℕ} (h : acc + l.sum < u64Size) :
    l.foldl (fun sum n => (sum + n) % u64Size) acc = acc + l.sum := by
  induction l generalizing acc with
  | nil => rfl
  | cons n l ih =>
    rw [sum_cons] at h
    rw [foldl_cons, Nat.mod_eq_of_lt (by omega), ih (by omega), sum_cons, Nat.add_assoc]

theorem foldlM_checked_isSome {l : List ℕ} {acc : ℕ} (hacc : acc < u64Size) :
    (l.foldlM (fun sum n => if sum + n < u64Size then some (sum + n) else none) acc).isSome ↔
      acc + l.sum < u64Size := by
  induction l generalizing acc with
  | nil => simp [hacc]
  | cons n l ih =>
    rw [foldlM_cons, sum_cons]
    by_cases hn : acc + n < u64Size
    · rw [if_pos hn, Option.bind_eq_bind, Option.bind_some, ih hn, Nat.add_assoc]
    · rw [if_neg hn]
      constructor
      · intro h
        cases h
      · intro h
        omega

theorem coveredTerms_le (clock target : ActorClock) : (coveredTerms clock target).sum ≤ seqSum target :=
  sum_le_sum fun _ _ => Nat.min_le_right _ _

theorem coveredTerms_self (target : ActorClock) : (coveredTerms target target).sum = seqSum target := by
  unfold coveredTerms seqSum
  congr 1
  refine map_congr_left fun e he => ?_
  have hget : target.get e.1 = e.2 := ActorClock.get_of_getElem? (mem_toList_iff_getElem?_eq_some.1 he)
  rw [hget, Nat.min_self]

/-- The checked sum of a goal's own clock is what bounds all of them. -/
theorem coveredChecked_isSome (target : ActorClock) :
    (∀ clock, (coveredChecked clock target).isSome) ↔ seqSum target < u64Size := by
  have hzero : 0 < u64Size := by decide
  constructor
  · intro h
    have hself := (foldlM_checked_isSome hzero).1 (h target)
    rwa [coveredTerms_self, Nat.zero_add] at hself
  · intro h clock
    refine (foldlM_checked_isSome hzero).2 ?_
    have := coveredTerms_le clock target
    omega

section Exact

variable (hfits : seqSum target < u64Size)

include hfits

theorem covered_eq (clock : ActorClock) : covered clock target = (coveredTerms clock target).sum := by
  have hle := coveredTerms_le clock target
  unfold covered
  rw [foldl_wrapping (by omega), Nat.zero_add]

/-- Covering as much as the clock itself means to dominate it. -/
theorem covered_eq_self_iff : covered clock target = covered target target ↔ clock.dominates target = true := by
  rw [covered_eq hfits, covered_eq hfits, coveredTerms_self]
  constructor
  · intro heq
    unfold ActorClock.dominates
    rw [all_eq_true]
    intro e he
    by_contra hnot
    rw [decide_eq_true_eq, Nat.not_le] at hnot
    have hlt : (coveredTerms clock target).sum < seqSum target :=
      sum_lt_sum _ _ (fun _ _ => Nat.min_le_right _ _) ⟨e, he, by simpa using hnot⟩
    omega
  · intro hdom
    unfold ActorClock.dominates at hdom
    rw [all_eq_true] at hdom
    unfold coveredTerms seqSum
    congr 1
    refine map_congr_left fun e he => Nat.min_eq_right ?_
    simpa using hdom e he

/-- Covering more means to cover a position newly. -/
theorem covered_lt_iff (hmono : Extends clock clock') :
    covered clock target < covered clock' target ↔ NewlyCovered clock clock' target := by
  rw [covered_eq hfits, covered_eq hfits]
  constructor
  · intro hlt
    by_contra hno
    have hle : (coveredTerms clock' target).sum ≤ (coveredTerms clock target).sum := by
      refine sum_le_sum fun e he => ?_
      have hget : target.get e.1 = e.2 := ActorClock.get_of_getElem? (mem_toList_iff_getElem?_eq_some.1 he)
      by_contra hlt
      refine hno ⟨e.1, min (clock'.get e.1) e.2, ?_, ?_, ?_, ?_⟩ <;> omega
    omega
  · rintro ⟨a, s, h1, hs, hbefore, hafter⟩
    have hmem : (a, target.get a) ∈ target.toList := by
      refine mem_toList_iff_getElem?_eq_some.2 ?_
      cases hget : target[a]? with
      | none =>
        have : target.get a = 0 := by simp [ActorClock.get, hget]
        omega
      | some n => rw [ActorClock.get_of_getElem? hget]
    refine sum_lt_sum _ _ (fun e _ => ?_) ⟨_, hmem, ?_⟩
    · have := hmono e.1
      omega
    · dsimp only
      omega

end Exact

theorem covered_empty (target : ActorClock) : covered ∅ target = 0 := by
  have hterms : ∀ n ∈ coveredTerms ∅ target, n = 0 := by
    intro n hn
    obtain ⟨e, -, rfl⟩ := List.mem_map.1 hn
    simp
  unfold covered
  generalize coveredTerms ∅ target = l at hterms
  induction l with
  | nil => rfl
  | cons n l ih =>
    rw [foldl_cons, hterms n mem_cons_self, Nat.zero_add, Nat.zero_mod]
    exact ih fun m hm => hterms m (mem_cons_of_mem _ hm)

/-- **What a measurement counts.** -/
theorem goalProgress_spec (h : goalProgress reads goal = .ok p) :
    p.inbound = covered (reads.localClock goal) goal.inbound ∧
    p.outbound = covered (reads.certifiedClock goal) goal.outbound ∧
      p.holes = reads.holesLeft goal ∧ p.staged = covered (reads.stagedPositions goal)
        (reads.stagedTarget goal) := by
  unfold GoalReads.localClock GoalReads.certifiedClock GoalReads.holesLeft GoalReads.stagedPositions
    GoalReads.stagedTarget
  unfold goalProgress at h
  cases hview : reads.view with
  | none =>
    have hactive : reads.active goal = none := by simp [GoalReads.active, hview]
    rw [hview] at h
    dsimp only at h
    split at h
    · cases h
    · cases h
      simp [hactive, covered_empty]
  | some view =>
    rw [hview] at h
    dsimp only at h
    split at h
    · rename_i hreplaces
      have hactive : reads.active goal = none := by simp [GoalReads.active, hview, hreplaces]
      cases h
      simp [hactive, covered_empty]
    · rename_i hreplaces
      split at h
      · cases h
      · rename_i hgenesis
        have hactive : reads.active goal = some view := by
          simp [GoalReads.active, hview, hreplaces, not_not.1 hgenesis]
        cases h
        refine ⟨by simp [hactive], by simp [hactive], by simp [hactive], ?_⟩
        rw [hactive]
        cases reads.receiptClock <;> simp [covered_empty]

/-- **The counts are exact exactly when the sequences of both clocks of the goal sum up below `2^64`.** -/
theorem goalExact_iff (goal : TopicGoal) :
    GoalExact goal ↔ seqSum goal.inbound < u64Size ∧ seqSum goal.outbound < u64Size := by
  constructor
  · intro G
    exact ⟨(coveredChecked_isSome _).1 fun clock => (G.noOverflow clock).1, (coveredChecked_isSome _).1
      fun clock => (G.noOverflow clock).2⟩
  · rintro ⟨hin, hout⟩
    refine ⟨fun clock => ⟨(coveredChecked_isSome _).2 hin clock, (coveredChecked_isSome _).2 hout clock⟩,
      ?_, ?_, ?_, ?_⟩
    · intro reads p hp
      obtain ⟨hinbound, houtbound, hholes, -⟩ := goalProgress_spec hp
      unfold GoalProgress.reached
      rw [Bool.and_eq_true, Bool.and_eq_true, decide_eq_true_eq, decide_eq_true_eq, decide_eq_true_eq, hinbound,
        houtbound, hholes, covered_eq_self_iff hin, covered_eq_self_iff hout, and_assoc]
    · intro reads reads' p p' hp hp' hmono
      rw [(goalProgress_spec hp).1, (goalProgress_spec hp').1, covered_lt_iff hin hmono]
    · intro reads reads' p p' hp hp' hmono
      rw [(goalProgress_spec hp).2.1, (goalProgress_spec hp').2.1, covered_lt_iff hout hmono]
    · intro reads reads' p p' hp hp' hmode hmono
      have htarget : reads'.stagedTarget goal = reads.stagedTarget goal := by
        rw [GoalReads.stagedTarget, GoalReads.stagedTarget, hmode]
      have hfits : seqSum (reads.stagedTarget goal) < u64Size := by
        unfold GoalReads.stagedTarget
        split
        · exact hin
        · exact hout
      rw [(goalProgress_spec hp).2.2.2, (goalProgress_spec hp').2.2.2, htarget, covered_lt_iff hfits hmono]

/-- A peer's summary with two positions of `2^63`. -/
def wrapGoal : TopicGoal where
  genesis := some (IdType.ofNat 1)
  inbound := ((∅ : ActorClock).insert (IdType.ofNat 2) (2 ^ 63)).insert (IdType.ofNat 3) (2 ^ 63)
  outbound := ∅

/-- A node that holds nothing of the goal's branch but its genesis. -/
def wrapReads : GoalReads where
  view := some { genesis := IdType.ofNat 1, clock := ∅ }

/-- The goal counts as reached, and the attempt as complete, with every position missing; with overflow checks
the sum panics. -/
theorem wrapGoal_reached : goalProgress wrapReads wrapGoal = .ok {} ∧ GoalProgress.reached {} wrapGoal = true ∧
    exchangeOutcome wrapGoal {} (goalProgress wrapReads wrapGoal) false = .complete ∧
    (wrapReads.localClock wrapGoal).dominates wrapGoal.inbound = false ∧
    coveredChecked wrapGoal.inbound wrapGoal.inbound = none := by
  decide +kernel

/-- A goal whose sum just fits. -/
theorem goalExact_iff_small : GoalExact { wrapGoal with
    inbound := ((∅ : ActorClock).insert (IdType.ofNat 2) (2 ^ 63)).insert (IdType.ofNat 3) (2 ^ 63 - 1) } :=
  (goalExact_iff _).2 (by decide +kernel)

end Irokle
