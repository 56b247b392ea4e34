import Irokle.Proof.Creation
import Irokle.Spec.Quarantine

/-!
# A sound store has no orphans

The heads of a topic reach every op of its branch, so on sound records a quarantine finds nothing to
discard and changes nothing.

* `topicOrphans_eq_empty` — no op is left out by the walk from the heads;
* `quarantineOrphans_eq` — a quarantine of a sound store does nothing.
-/

namespace Irokle

open Std Outcome Causal List ExtTreeSet

variable {E : Env} {V : View} {K : Prop} {P : Op → Prop} {r : Records} {t : TopicId} {g x y op : Op}
  {γ : TopicGenesis} {log : Oplog}

/-- What the walk from the heads has met: each id's dependencies are met or still on the stack. -/
structure HeadReach (r : Records) (heads : BTreeSet OpId) (stack : List OpId) (seen : BTreeSet OpId) : Prop where
  start : ∀ d ∈ heads, d ∈ seen ∨ d ∈ stack
  closed : ∀ id ∈ seen, ∀ m, r.metas[id]? = some m → ∀ d ∈ m.deps, d ∈ seen ∨ d ∈ stack

theorem HeadReach.pop {heads seen : BTreeSet OpId} {id : OpId} {stack : List OpId}
    (h : HeadReach r heads (id :: stack) seen) (hid : id ∈ seen) : HeadReach r heads stack seen := by
  have hstill : ∀ d, d ∈ seen ∨ d ∈ id :: stack → d ∈ seen ∨ d ∈ stack := by
    rintro d (hd | hd)
    · exact Or.inl hd
    · rcases mem_cons.1 hd with rfl | hd
      · exact Or.inl hid
      · exact Or.inr hd
  exact ⟨fun d hd => hstill d (h.start d hd), fun id' hid' m hm d hd => hstill d (h.closed id' hid' m hm d hd)⟩

theorem HeadReach.visit {heads seen : BTreeSet OpId} {id : OpId} {stack next : List OpId}
    (h : HeadReach r heads (id :: stack) seen) (hnext : ∀ m, r.metas[id]? = some m → ∀ d ∈ m.deps, d ∈ next) :
    HeadReach r heads (next ++ stack) (seen.insert id) := by
  have hstill : ∀ d, d ∈ seen ∨ d ∈ id :: stack → d ∈ seen.insert id ∨ d ∈ next ++ stack := by
    rintro d (hd | hd)
    · exact Or.inl (by simp [hd])
    · rcases mem_cons.1 hd with rfl | hd
      · exact Or.inl (by simp)
      · exact Or.inr (mem_append_right _ hd)
  refine ⟨fun d hd => hstill d (h.start d hd), fun id' hid' m hm d hd => ?_⟩
  rcases mem_insert.1 hid' with heq | hid'
  · obtain rfl := Std.compare_eq_iff_eq.1 heq
    exact Or.inr (mem_append_left _ (hnext m hm d hd))
  · exact hstill d (h.closed id' hid' m hm d hd)

/-- The walk ends, within its fuel, once everything reached is met. -/
theorem headWalk_reach {heads seen : BTreeSet OpId} {fuel : ℕ} {stack : List OpId}
    (h : HeadReach r heads stack seen)
    (hfuel : stack.length + unseenEdges (·.deps.size) r.metas.toList seen.contains < fuel) :
    HeadReach r heads [] (headWalk r fuel stack seen) := by
  induction fuel generalizing stack seen with
  | zero => exact absurd hfuel (Nat.not_lt_zero _)
  | succ fuel ih =>
    cases stack with
    | nil => exact h
    | cons id stack =>
      rw [headWalk]
      rw [length_cons] at hfuel
      split
      · rename_i hid
        exact ih (h.pop hid) (by omega)
      · rename_i hid
        have hmono : ∀ id', seen.contains id' = true → (seen.insert id).contains id' = true := by
          intro id' hid'
          simp [hid']
        dsimp only
        cases hm : r.metas[id]? with
        | none =>
          refine ih (h.visit (by simp [hm])) ?_
          have := unseenEdges_mono (f := fun m : OpMeta => m.deps.size) r.metas.toList hmono
          simp only [nil_append]
          omega
        | some m =>
          refine ih (h.visit fun m' hm' d hd => ?_) ?_
          · rw [hm] at hm'
            cases hm'
            simpa using hd
          · have hmem : (id, m) ∈ r.metas.toList := ExtTreeMap.mem_toList_iff_getElem?_eq_some.2 hm
            have hnot : seen.contains id = false := Bool.eq_false_iff.2 hid
            have := unseenEdges_seen (f := fun m : OpMeta => m.deps.size) hmono hmem hnot (by simp)
            simp only [length_append, length_reverse, length_toList]
            omega

theorem reachedFromHeads_reach (r : Records) (t : TopicId) :
    HeadReach r (r.headsOf t) [] (reachedFromHeads r t) := by
  refine headWalk_reach ⟨fun d hd => Or.inr (by simpa using hd), by simp⟩ ?_
  have : unseenEdges (·.deps.size) r.metas.toList (∅ : BTreeSet OpId).contains =
      (r.metas.toList.map (·.2.deps.size)).sum := by
    simp [unseenEdges]
  rw [this, length_reverse, length_toList]
  omega

/-- **The heads of a topic reach every op of it.** -/
theorem RecordsOK.reached (R : RecordsOK E r) (hx : x ∈ r.admitted t) : x.id ∈ reachedFromHeads r t := by
  obtain ⟨g, γ, st, -, B⟩ := R.branch_of_mem hx
  have hreach := reachedFromHeads_reach r t
  have hmem : ∀ {d}, d ∈ reachedFromHeads r t ∨ d ∈ ([] : List OpId) → d ∈ reachedFromHeads r t := by simp
  -- what lies below a met op is met, by its generation
  have key : ∀ k (y : Op), y ∈ r.admitted t → y.body.generation = k → y.id ∈ reachedFromHeads r t →
      x = y ∨ x ∈ E.past y → x.id ∈ reachedFromHeads r t := by
    intro k
    induction k using Nat.strong_induction_on with
    | _ k ih =>
      rintro y hy hk hmet (rfl | hxy)
      · exact hmet
      · obtain ⟨z, hz, hdep, hxz⟩ := (mem_past_iff (B.valid hy)).1 hxy
        obtain ⟨z', hz', hid, hlt⟩ := (B.links y hy).deps z.id hdep
        obtain rfl := (B.valid hz').eq_of_id hz hid
        obtain ⟨m, hm, hok⟩ := R.hasMeta y.id y hy.1
        have hzmet := hmem (hreach.closed y.id hmet m hm z'.id (by rwa [hok.deps_eq]))
        exact ih _ (hk ▸ hlt) z' hz' rfl hzmet hxz
  rw [← B.below_eq_of_heads (R.finite t) fun d => R.heads t d] at hx
  obtain ⟨y, hy, hhead, hxy⟩ := hx
  obtain ⟨y', hy', hid⟩ := (R.heads t y.id).1 hhead
  obtain rfl := (B.valid hy'.1).eq_of_id hy hid
  exact key _ y' hy'.1 rfl (hmem (hreach.start _ hhead)) hxy

theorem RecordsOK.topicOrphans_eq_empty (R : RecordsOK E r) (t : TopicId) : topicOrphans r t = ∅ := by
  refine eq_empty_iff_forall_not_mem.2 fun id hid => ?_
  obtain ⟨hlisted, hnot⟩ := mem_diff_iff.1 hid
  obtain ⟨x, hx, rfl⟩ := (R.topicOps t id).1 hlisted
  exact hnot (R.reached hx)

/-- **A quarantine of a sound store does nothing.** -/
theorem quarantineOrphans_eq (L : LogOK E K P log) (t : TopicId) :
    log.quarantineOrphans E V t = (.ok none, log) := by
  unfold Oplog.quarantineOrphans
  rw [L.records.topicOrphans_eq_empty]
  rfl

end Irokle
