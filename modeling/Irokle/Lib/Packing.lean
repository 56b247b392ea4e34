import Mathlib

/-!
# Greedy packing

Elements are put into groups in their order: the next one joins the open group when `joins` allows it,
and opens a new group otherwise. `packed` is the state of that loop, closed groups and the open one, and
`pack` the groups it leaves.

* `flatten_pack` — the groups hold the elements in their order, and none is empty;
* `pack_forall` — what a single element has and joining keeps, every group has;
* `length_pack_mono`, `sum_pack_mono` — more elements take no fewer groups and no less room.
-/

namespace Irokle.Packing

variable {α : Type*} (joins : List α → α → Bool)

/-- Close the open group, unless it is empty. -/
def close (s : List (List α) × List α) : List (List α) := if s.2 = [] then s.1 else s.1 ++ [s.2]

/-- Put one element into the open group or into a new one. -/
def put (s : List (List α) × List α) (a : α) : List (List α) × List α :=
  if s.2 ≠ [] ∧ joins s.2 a then (s.1, s.2 ++ [a]) else (close s, [a])

/-- The groups after some elements, the open one apart. -/
def packed (l : List α) : List (List α) × List α := l.foldl (put joins) ([], [])

/-- The groups of some elements. -/
def pack (l : List α) : List (List α) := close (packed joins l)

variable {joins} {l l' : List α} {a : α} {s : List (List α) × List α}

variable (joins) in
theorem packed_snoc (l : List α) (a : α) : packed joins (l ++ [a]) = put joins (packed joins l) a := by
  simp [packed]

@[simp] theorem close_put_joined (h : s.2 ≠ [] ∧ joins s.2 a) : close (put joins s a) = s.1 ++ [s.2 ++ [a]] := by
  simp [close, put, h]

@[simp] theorem close_put_opened (h : ¬(s.2 ≠ [] ∧ joins s.2 a)) : close (put joins s a) = close s ++ [[a]] := by
  rw [put, if_neg h, close, if_neg (List.cons_ne_nil a [])]

theorem close_of_ne_nil (h : s.2 ≠ []) : close s = s.1 ++ [s.2] := if_neg h

variable (joins) in
/-- What an element does to the groups: it is appended to the last one, or is the new last one. -/
theorem pack_snoc (l : List α) (a : α) :
    (∃ closed g, g ≠ [] ∧ joins g a ∧ packed joins l = (closed, g) ∧ pack joins l = closed ++ [g] ∧
        pack joins (l ++ [a]) = closed ++ [g ++ [a]]) ∨
      pack joins (l ++ [a]) = pack joins l ++ [[a]] := by
  unfold pack
  rw [packed_snoc]
  by_cases h : (packed joins l).2 ≠ [] ∧ joins (packed joins l).2 a
  · exact Or.inl ⟨_, _, h.1, h.2, rfl, close_of_ne_nil h.1, close_put_joined h⟩
  · exact Or.inr (close_put_opened h)

@[simp] theorem pack_nil : pack joins [] = [] := rfl

/-- **The groups hold the elements in their order.** -/
theorem flatten_pack (l : List α) : (pack joins l).flatten = l := by
  induction l using List.reverseRecOn with
  | nil => rfl
  | append_singleton l a ih =>
    rcases pack_snoc joins l a with ⟨closed, g, -, -, -, hl, h⟩ | h
    · rw [hl] at ih
      rw [h]
      simpa using congrArg (· ++ [a]) ih
    · rw [h, List.flatten_append, ih]
      simp

/-- What a single element has and joining keeps, every group has. -/
theorem pack_forall {P : List α → Prop} (hone : ∀ a ∈ l, P [a])
    (hjoin : ∀ g a, a ∈ l → P g → joins g a → P (g ++ [a])) :
    ∀ g ∈ pack joins l, P g := by
  induction l using List.reverseRecOn with
  | nil => simp
  | append_singleton l a ih =>
    have ih := ih (fun b hb => hone b (List.mem_append_left _ hb)) fun g b hb =>
      hjoin g b (List.mem_append_left _ hb)
    rcases pack_snoc joins l a with ⟨closed, g, -, hga, -, hl, h⟩ | h
    · rw [hl] at ih
      rw [h]
      intro g' hg'
      rcases List.mem_append.1 hg' with hg' | hg'
      · exact ih g' (List.mem_append_left _ hg')
      · rw [List.mem_singleton.1 hg']
        exact hjoin g a (by simp) (ih g (by simp)) hga
    · rw [h]
      intro g' hg'
      rcases List.mem_append.1 hg' with hg' | hg'
      · exact ih g' hg'
      · rw [List.mem_singleton.1 hg']
        exact hone a (by simp)

theorem ne_nil_of_mem_pack {g : List α} (h : g ∈ pack joins l) : g ≠ [] :=
  pack_forall (P := (· ≠ [])) (fun a _ => List.cons_ne_nil a []) (fun g a _ _ _ => by simp) g h

/-- A measure of the groups that neither joining nor opening lowers grows with the elements. -/
theorem pack_mono {f : List (List α) → ℕ} (hjoin : ∀ closed g a, f (closed ++ [g]) ≤ f (closed ++ [g ++ [a]]))
    (hopen : ∀ gs a, f gs ≤ f (gs ++ [[a]])) (h : l <+: l') : f (pack joins l) ≤ f (pack joins l') := by
  obtain ⟨rest, rfl⟩ := h
  induction rest using List.reverseRecOn with
  | nil => simp
  | append_singleton rest a ih =>
    refine ih.trans ?_
    rw [← List.append_assoc]
    rcases pack_snoc joins (l ++ rest) a with ⟨closed, g, -, -, -, hl, h⟩ | h
    · rw [hl, h]
      exact hjoin closed g a
    · rw [h]
      exact hopen _ a

theorem length_pack_mono (h : l <+: l') : (pack joins l).length ≤ (pack joins l').length :=
  pack_mono (f := List.length) (fun closed g a => by simp) (fun gs a => by simp) h

theorem sum_pack_mono {cost : List α → ℕ} (hcost : ∀ g a, cost g ≤ cost (g ++ [a])) (h : l <+: l') :
    ((pack joins l).map cost).sum ≤ ((pack joins l').map cost).sum :=
  pack_mono (f := fun gs => (gs.map cost).sum) (fun closed g a => by simpa using hcost g a)
    (fun gs a => by simp) h

end Irokle.Packing
