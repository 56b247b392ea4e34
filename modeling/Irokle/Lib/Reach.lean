import Irokle.Lib.BTree

/-!
# Depth-first closures

A work-list walk over a relation given by its successor lists: the top of the stack is taken off,
and those of its successors not seen yet are marked and pushed. Enough steps mark exactly what the
stack reaches.

* `Reach.mem_walk` — from one element and nothing seen, the walk marks what is reached in one step or more;
* `Reach.mem_walk_set` — from a set marked at the beginning, it marks all the set reaches.
-/

namespace Irokle

open Std Relation List ExtTreeSet

namespace Reach

variable {α : Type} [Ord α] [TransOrd α] [LawfulEqOrd α]

/-- Push the elements not seen yet, newest on top. -/
def push (l : List α) (st : List α × BTreeSet α) : List α × BTreeSet α :=
  l.foldl (fun st a => if a ∈ st.2 then st else (a :: st.1, st.2.insert a)) st

/-- The walk with at most `fuel` steps. -/
def walk (next : α → List α) : ℕ → List α → BTreeSet α → BTreeSet α
  | 0, _, seen => seen
  | _ + 1, [], seen => seen
  | fuel + 1, a :: frontier, seen =>
    let st := push (next a) (frontier, seen)
    walk next fuel st.1 st.2

/-- One step along the successor lists. -/
def Step (next : α → List α) (a b : α) : Prop := b ∈ next a

variable {next : α → List α} {l frontier : List α} {seen : BTreeSet α} {a b : α}

theorem mem_push_seen : b ∈ (push l (frontier, seen)).2 ↔ b ∈ l ∨ b ∈ seen := by
  unfold push
  induction l generalizing frontier seen with
  | nil => simp
  | cons a l ih =>
    rw [foldl_cons]
    dsimp only
    by_cases ha : a ∈ seen
    · rw [if_pos ha, ih]
      constructor
      · rintro (h | h)
        · exact Or.inl (mem_cons_of_mem _ h)
        · exact Or.inr h
      · rintro (h | h)
        · rcases mem_cons.1 h with rfl | h
          · exact Or.inr ha
          · exact Or.inl h
        · exact Or.inr h
    · rw [if_neg ha, ih, mem_insert, mem_cons, LawfulEqOrd.compare_eq_iff_eq]
      tauto

variable [DecidableEq α]

theorem mem_push_frontier : b ∈ (push l (frontier, seen)).1 ↔ b ∈ frontier ∨ b ∈ l ∧ b ∉ seen := by
  unfold push
  induction l generalizing frontier seen with
  | nil => simp
  | cons a l ih =>
    rw [foldl_cons]
    dsimp only
    by_cases ha : a ∈ seen
    · rw [if_pos ha, ih, mem_cons]
      constructor
      · rintro (h | h)
        · exact Or.inl h
        · exact Or.inr ⟨Or.inr h.1, h.2⟩
      · rintro (h | ⟨rfl | h, hs⟩)
        · exact Or.inl h
        · exact absurd ha hs
        · exact Or.inr ⟨h, hs⟩
    · rw [if_neg ha, ih, mem_insert, mem_cons, mem_cons, LawfulEqOrd.compare_eq_iff_eq]
      constructor
      · rintro ((rfl | h) | ⟨h, hs⟩)
        · exact Or.inr ⟨Or.inl rfl, ha⟩
        · exact Or.inl h
        · exact Or.inr ⟨Or.inr h, fun h => hs (Or.inr h)⟩
      · rintro (h | ⟨rfl | h, hs⟩)
        · exact Or.inl (Or.inr h)
        · exact Or.inl (Or.inl rfl)
        · by_cases hab : a = b
          · exact Or.inl (Or.inl hab.symm)
          · exact Or.inr ⟨h, fun h => h.elim hab hs⟩

/-- Every push marks one element of `u` that was not marked. -/
theorem length_push (u frontier : List α) (seen : BTreeSet α) (hl : ∀ b ∈ l, b ∈ u) :
    (push l (frontier, seen)).1.length + (u.filter fun b => decide (b ∉ (push l (frontier, seen)).2)).length ≤
      frontier.length + (u.filter fun b => decide (b ∉ seen)).length := by
  unfold push
  induction l generalizing frontier seen with
  | nil => exact Nat.le_refl _
  | cons a l ih =>
    have hl' : ∀ b ∈ l, b ∈ u := fun b hb => hl b (mem_cons_of_mem _ hb)
    rw [foldl_cons]
    dsimp only
    by_cases ha : a ∈ seen
    · rw [if_pos ha]
      exact ih _ _ hl'
    · rw [if_neg ha]
      refine Nat.le_trans (ih _ _ hl') ?_
      -- marking `a` takes it out of the filtered list
      have hlt : (u.filter fun b => decide (b ∉ seen.insert a)).length <
          (u.filter fun b => decide (b ∉ seen)).length := by
        have hsub : (u.filter fun b => decide (b ∉ seen.insert a)) =
            (u.filter fun b => decide (b ∉ seen)).filter fun b => decide (b ≠ a) := by
          rw [filter_filter]
          refine filter_congr fun b _ => ?_
          rw [← Bool.decide_and]
          refine decide_eq_decide.2 ?_
          rw [mem_insert, LawfulEqOrd.compare_eq_iff_eq, not_or, eq_comm]
        rw [hsub]
        have hmem : a ∈ u.filter fun b => decide (b ∉ seen) :=
          List.mem_filter.2 ⟨hl a mem_cons_self, by simpa using ha⟩
        exact length_filter_lt_length_iff_exists.2 ⟨a, hmem, by simp⟩
      rw [length_cons]
      omega

/-- What the walk has marked, or starts from, is closed but for what is still on the stack. -/
def Closed (next : α → List α) (starts : α → Prop) (frontier : List α) (seen : BTreeSet α) : Prop :=
  ∀ a, (starts a ∨ a ∈ seen) → a ∈ frontier ∨ ∀ b ∈ next a, b ∈ seen

/-- **Enough steps mark exactly what is reached**, beside what was marked at the beginning. -/
theorem mem_walk_of {starts : α → Prop} {base : BTreeSet α} (u : List α) (hu : ∀ a, ∀ b ∈ next a, b ∈ u) :
    ∀ (fuel : ℕ) (frontier : List α) (seen : BTreeSet α),
      frontier.length + (u.filter fun b => decide (b ∉ seen)).length < fuel →
      (∀ a ∈ frontier, starts a ∨ a ∈ seen) → (∀ b ∈ base, b ∈ seen) →
      (∀ b ∈ seen, (b ∈ base → starts b) ∧ (b ∈ base ∨ ∃ a, starts a ∧ TransGen (Step next) a b)) →
      Closed next starts frontier seen →
      ∀ b, b ∈ walk next fuel frontier seen ↔ b ∈ base ∨ ∃ a, starts a ∧ TransGen (Step next) a b := by
  intro fuel
  induction fuel with
  | zero => intro frontier seen h; omega
  | succ fuel ih =>
    intro frontier seen hfuel hfrontier hbase hseen hclosed b
    cases frontier with
    | nil =>
      refine ⟨fun h => (hseen b h).2, ?_⟩
      -- nothing is left on the stack, so the marks are closed
      have hstep : ∀ {x y}, starts x ∨ x ∈ seen → Step next x y → y ∈ seen := fun hx hxy =>
        (hclosed _ hx).elim (fun h => by cases h) fun h => h _ hxy
      rintro (h | ⟨a, ha, h⟩)
      · exact hbase b h
      show b ∈ seen
      induction h with
      | single h => exact hstep (Or.inl ha) h
      | tail _ h ih => exact hstep (Or.inr ih) h
    | cons a frontier =>
      have ha := hfrontier a mem_cons_self
      have hbound := length_push u frontier seen (hu a)
      rw [walk]
      refine ih _ _ ?_ ?_ ?_ ?_ ?_ b
      · rw [length_cons] at hfuel
        omega
      · intro x hx
        rw [mem_push_seen]
        rcases mem_push_frontier.1 hx with h | h
        · exact (hfrontier x (mem_cons_of_mem _ h)).imp_right Or.inr
        · exact Or.inr (Or.inl h.1)
      · exact fun x hx => mem_push_seen.2 (Or.inr (hbase x hx))
      · intro x hx
        by_cases hxs : x ∈ seen
        · exact hseen x hxs
        have hax : x ∈ next a := (mem_push_seen.1 hx).resolve_right hxs
        refine ⟨fun h => absurd (hbase x h) hxs, Or.inr ?_⟩
        rcases ha with ha | ha
        · exact ⟨a, ha, .single hax⟩
        · obtain ⟨hstart, hreach⟩ := hseen a ha
          rcases hreach with hb | ⟨s, hs, hsa⟩
          · exact ⟨a, hstart hb, .single hax⟩
          · exact ⟨s, hs, hsa.tail hax⟩
      · intro x hx
        have hkeep : (starts x ∨ x ∈ seen) → x ∈ (push (next a) (frontier, seen)).1 ∨
            ∀ y ∈ next x, y ∈ (push (next a) (frontier, seen)).2 := by
          intro hx
          by_cases hxa : x = a
          · subst hxa
            exact Or.inr fun y hy => mem_push_seen.2 (Or.inl hy)
          · rcases hclosed x hx with h | h
            · exact Or.inl (mem_push_frontier.2 (Or.inl ((mem_cons.1 h).resolve_left hxa)))
            · exact Or.inr fun y hy => mem_push_seen.2 (Or.inr (h y hy))
        rcases hx with hx | hx
        · exact hkeep (Or.inl hx)
        · by_cases hs : x ∈ seen
          · exact hkeep (Or.inr hs)
          · exact Or.inl (mem_push_frontier.2 (Or.inr ⟨(mem_push_seen.1 hx).resolve_right hs, hs⟩))

/-- **The closure of one element.** -/
theorem mem_walk {start : α} {fuel : ℕ} (u : List α) (hu : ∀ a, ∀ b ∈ next a, b ∈ u)
    (hfuel : u.length + 1 < fuel) :
    b ∈ walk next fuel [start] ∅ ↔ TransGen (Step next) start b := by
  have hwalk := @mem_walk_of α _ _ _ next _ (· = start) ∅ u hu fuel [start] ∅ ?_ (by simp) (by simp)
    (by simp) ?_ b
  · simpa using hwalk
  · have := length_filter_le (fun b => decide (b ∉ (∅ : BTreeSet α))) u
    rw [length_singleton]
    omega
  · intro a ha
    exact Or.inl (by simpa using ha)

/-- **The closure of a set**: the walk from all of its elements, marked at the beginning. -/
theorem mem_walk_set {base : BTreeSet α} {frontier : List α} {fuel : ℕ} (hfrontier : ∀ a, a ∈ frontier ↔ a ∈ base)
    (u : List α) (hu : ∀ a, ∀ b ∈ next a, b ∈ u) (hfuel : frontier.length + u.length < fuel) :
    b ∈ walk next fuel frontier base ↔ ∃ a ∈ base, ReflTransGen (Step next) a b := by
  have hlen := length_filter_le (fun b => decide (b ∉ base)) u
  rw [@mem_walk_of α _ _ _ next _ (· ∈ base) base u hu fuel frontier base (by omega)
    (fun a ha => Or.inl ((hfrontier a).1 ha)) (fun _ h => h) (fun _ h => ⟨id, Or.inl h⟩)
    (fun a ha => Or.inl ((hfrontier a).2 (ha.elim id id)))]
  constructor
  · rintro (h | ⟨a, ha, hab⟩)
    · exact ⟨b, h, .refl⟩
    · exact ⟨a, ha, hab.to_reflTransGen⟩
  · rintro ⟨a, ha, hab⟩
    rcases reflTransGen_iff_eq_or_transGen.1 hab with rfl | hab
    · exact Or.inl ha
    · exact Or.inr ⟨a, ha, hab⟩

end Reach

end Irokle
