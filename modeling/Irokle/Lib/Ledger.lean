import Mathlib

/-!
# Totals over holders

Holders take amounts of several kinds out of shared totals and give back what they hold when they end. The totals
are balanced when each is the sum of what the holders have of it.

* `Balanced.take`, `Balanced.give` — a holder takes more, and gives all back;
* `Balanced.le` — no holder has more than there is.
-/

namespace Irokle.Ledger

variable {κ : Type} {total : κ → ℕ} {l l' : List (κ → ℕ)} {a b : κ → ℕ} {k : κ} {n : ℕ}

/-- Each total is the sum over the holders. -/
def Balanced (total : κ → ℕ) (holders : List (κ → ℕ)) : Prop := ∀ k, total k = (holders.map (· k)).sum

theorem sum_mid (k : κ) : ((l ++ a :: l').map (· k)).sum = a k + ((l ++ l').map (· k)).sum := by
  simp only [List.map_append, List.map_cons, List.sum_append, List.sum_cons]
  omega

theorem Balanced.empty : Balanced (fun _ : κ => 0) [] := fun _ => rfl

/-- A holder is replaced by one that has as much more as was taken. -/
theorem Balanced.take [DecidableEq κ] (h : Balanced total (l ++ a :: l'))
    (hb : b = Function.update a k (a k + n)) :
    Balanced (Function.update total k (total k + n)) (l ++ b :: l') := by
  intro k'
  have hk := h k'
  rw [sum_mid] at hk ⊢
  subst hb
  by_cases hkk : k' = k
  · subst hkk
    simp only [Function.update_self]
    omega
  · rwa [Function.update_of_ne hkk, Function.update_of_ne hkk]

theorem Balanced.give (h : Balanced total (l ++ a :: l')) : Balanced (fun k => total k - a k) (l ++ l') := by
  intro k
  have hk := h k
  rw [sum_mid] at hk
  dsimp only
  omega

/-- A new holder has nothing yet. -/
theorem Balanced.join (h : Balanced total l) (ha : ∀ k, a k = 0) : Balanced total (a :: l) := by
  intro k
  rw [h k, List.map_cons, List.sum_cons, ha k, Nat.zero_add]

theorem Balanced.le (h : Balanced total l) (ha : a ∈ l) (k : κ) : a k ≤ total k := by
  obtain ⟨l₁, l₂, rfl⟩ := List.append_of_mem ha
  rw [h k, sum_mid]
  exact Nat.le_add_right _ _

end Irokle.Ledger
