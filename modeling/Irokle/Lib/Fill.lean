import Irokle.Lib.BTree

/-!
# Filling a bounded set from a list

`fill limit ok s l` goes through `l` and puts the elements that `ok` accepts into `s`, until `s` holds
`limit` elements.

* `mem_of_mem_fill`, `mem_fill_of_mem` — nothing else is added and nothing is removed;
* `fill_full_or` — the set is full in the end, or every accepted element is in it;
* `mem_fill_first` — with room left, the first accepted element gets in.
-/

namespace Irokle.Fill

open Std

variable {α : Type} [Ord α] [TransOrd α] {limit : ℕ} {ok : α → Bool} {s : BTreeSet α} {l : List α} {a : α}

/-- One element offered. -/
def put (limit : ℕ) (ok : α → Bool) (s : BTreeSet α) (a : α) : BTreeSet α :=
  if s.size ≥ limit then s else if ok a then s.insert a else s

/-- The elements of a list offered in turn. -/
def fill (limit : ℕ) (ok : α → Bool) (s : BTreeSet α) (l : List α) : BTreeSet α := l.foldl (put limit ok) s

theorem fill_cons : fill limit ok s (a :: l) = fill limit ok (put limit ok s a) l := rfl

theorem mem_put_of_mem {b : α} (h : b ∈ s) : b ∈ put limit ok s a := by
  unfold put
  split
  · exact h
  · split
    · exact ExtTreeSet.mem_insert.2 (Or.inr h)
    · exact h

theorem mem_fill_of_mem (h : a ∈ s) (l : List α) : a ∈ fill limit ok s l := by
  induction l generalizing s with
  | nil => exact h
  | cons b l ih => exact ih (mem_put_of_mem h)

theorem size_put_le (h : s.size ≤ limit) : (put limit ok s a).size ≤ limit := by
  unfold put
  split
  · exact h
  · split
    · have hsize := ExtTreeSet.size_insert_le (t := s) (k := a)
      omega
    · exact h

theorem size_fill_le (h : s.size ≤ limit) : (fill limit ok s l).size ≤ limit := by
  induction l generalizing s with
  | nil => exact h
  | cons a l ih => exact ih (size_put_le h)

theorem fill_of_full (h : limit ≤ s.size) : fill limit ok s l = s := by
  induction l with
  | nil => rfl
  | cons a l ih =>
    have hput : put limit ok s a = s := if_pos h
    rw [fill_cons, hput, ih]

/-- **A pass fills the set or exhausts the list.** -/
theorem fill_full_or : limit ≤ (fill limit ok s l).size ∨ ∀ a ∈ l, ok a = true → a ∈ fill limit ok s l := by
  induction l generalizing s with
  | nil => exact Or.inr (by simp)
  | cons b l ih =>
    by_cases hfull : limit ≤ s.size
    · left
      rw [fill_of_full hfull]
      exact hfull
    · refine (ih (s := put limit ok s b)).imp_right fun hall a ha hok => ?_
      rcases List.mem_cons.1 ha with rfl | ha
      · refine mem_fill_of_mem ?_ l
        unfold put
        rw [if_neg hfull, if_pos hok]
        exact ExtTreeSet.mem_insert_self
      · exact hall a ha hok

/-- With room left, the first accepted element of the list gets in. -/
theorem mem_fill_first {before after : List α} (h : s.size < limit) (hbefore : ∀ b ∈ before, ok b = false)
    (hok : ok a = true) :
    a ∈ fill limit ok s (before ++ a :: after) := by
  induction before with
  | nil =>
    refine mem_fill_of_mem ?_ after
    unfold put
    rw [if_neg (Nat.not_le.2 h), if_pos hok]
    exact ExtTreeSet.mem_insert_self
  | cons b before ih =>
    have hput : put limit ok s b = s := by
      unfold put
      rw [hbefore b List.mem_cons_self]
      simp
    rw [List.cons_append, fill_cons, hput]
    exact ih fun b hb => hbefore b (List.mem_cons_of_mem _ hb)

variable [LawfulEqOrd α]

theorem mem_of_mem_put {b : α} (h : b ∈ put limit ok s a) : b ∈ s ∨ b = a ∧ ok a = true := by
  unfold put at h
  split at h
  · exact Or.inl h
  · split at h
    · rename_i hok
      rcases ExtTreeSet.mem_insert.1 h with heq | h
      · exact Or.inr ⟨(compare_eq_iff_eq.1 heq).symm, hok⟩
      · exact Or.inl h
    · exact Or.inl h

theorem mem_of_mem_fill (h : a ∈ fill limit ok s l) : a ∈ s ∨ a ∈ l ∧ ok a = true := by
  induction l generalizing s with
  | nil => exact Or.inl h
  | cons b l ih =>
    rcases ih h with h | ⟨hl, hok⟩
    · rcases mem_of_mem_put h with h | ⟨rfl, hok⟩
      · exact Or.inl h
      · exact Or.inr ⟨List.mem_cons_self, hok⟩
    · exact Or.inr ⟨List.mem_cons_of_mem _ hl, hok⟩

end Irokle.Fill
