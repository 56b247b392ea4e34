import Mathlib

/-!
# Last-writer-wins registers

A register keeps, of all keyed writes it has seen, one whose key is greatest. `IsLatest W c` says
that `c` is such a write of the set `W`; it does not mention the order in which writes arrived.

* `IsLatest.put` — one more write;
* `IsLatest.of_subset` — a smaller set of writes that still holds the winner has the same winner;
* `IsLatest.unique` — with distinct keys the winner is determined.
-/

namespace Irokle.LastWriter

variable {κ ν : Type*} [LinearOrder κ]

/-- Keep the held write unless the new one has a greater key. -/
def put (c : Option (κ × ν)) (e : κ × ν) : Option (κ × ν) :=
  match c with
  | none => some e
  | some held => if held.1 < e.1 then some e else some held

/-- `c` is a write of `W` with the greatest key, and `none` only when there is none. -/
structure IsLatest (W : Set (κ × ν)) (c : Option (κ × ν)) : Prop where
  mem : ∀ e, c = some e → e ∈ W
  le : ∀ e ∈ W, ∃ w, c = some w ∧ e.1 ≤ w.1

variable {V W : Set (κ × ν)} {c d : Option (κ × ν)} {e : κ × ν}

theorem IsLatest.empty : IsLatest (∅ : Set (κ × ν)) none := ⟨by simp, by simp⟩

theorem IsLatest.eq_empty (h : IsLatest W none) : W = ∅ := by
  refine Set.eq_empty_of_forall_notMem fun e he => ?_
  obtain ⟨w, hw, -⟩ := h.le e he
  cases hw

theorem IsLatest.put (h : IsLatest W c) : IsLatest (insert e W) (put c e) := by
  cases c with
  | none =>
    refine ⟨?_, ?_⟩
    · rintro e' ⟨⟩
      exact Set.mem_insert _ _
    · rintro e' (rfl | he')
      · exact ⟨_, rfl, le_rfl⟩
      · rw [h.eq_empty] at he'
        exact absurd he' (Set.notMem_empty _)
  | some held =>
    have hheld : held ∈ W := h.mem held rfl
    have hle : ∀ e' ∈ W, e'.1 ≤ held.1 := by
      intro e' he'
      obtain ⟨w, hw, hle⟩ := h.le e' he'
      cases hw
      exact hle
    unfold LastWriter.put
    by_cases hlt : held.1 < e.1
    · simp only [hlt, if_true]
      refine ⟨?_, ?_⟩
      · rintro e' ⟨⟩
        exact Set.mem_insert _ _
      · rintro e' (rfl | he')
        · exact ⟨_, rfl, le_rfl⟩
        · exact ⟨_, rfl, (hle e' he').trans hlt.le⟩
    · simp only [hlt, if_false]
      refine ⟨?_, ?_⟩
      · rintro e' ⟨⟩
        exact Set.mem_insert_of_mem _ hheld
      · rintro e' (rfl | he')
        · exact ⟨_, rfl, not_lt.1 hlt⟩
        · exact ⟨_, rfl, hle e' he'⟩

theorem IsLatest.of_subset (h : IsLatest W c) (hsub : V ⊆ W) (hmem : ∀ e, c = some e → e ∈ V) :
    IsLatest V c :=
  ⟨hmem, fun e he => h.le e (hsub he)⟩

theorem IsLatest.unique (hinj : ∀ e ∈ W, ∀ e' ∈ W, e.1 = e'.1 → e = e') (hc : IsLatest W c)
    (hd : IsLatest W d) : c = d := by
  cases c with
  | none =>
    cases d with
    | none => rfl
    | some e =>
      have := hd.mem e rfl
      rw [hc.eq_empty] at this
      exact absurd this (Set.notMem_empty _)
  | some e =>
    have he := hc.mem e rfl
    obtain ⟨e', rfl, hle⟩ := hd.le e he
    have he' := hd.mem e' rfl
    obtain ⟨w, hw, hle'⟩ := hc.le e' he'
    cases hw
    rw [hinj e he e' he' (le_antisymm hle hle')]

end Irokle.LastWriter
