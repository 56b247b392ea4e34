import Mathlib

/-!
# Computations that may fail

How a run of a fallible computation decomposes, and rules for its postconditions: one for what it
returns and one for the errors it fails with.

* `bind_eq_ok`, `forM_eq_ok` — every part of a successful sequence succeeded;
* `Post.bind`, `Post.foldlM` — postconditions of a sequence and of a fold;
* `Post.total` — a computation that cannot fail returns.
-/

namespace Irokle.Outcome

variable {ε α β σ : Type}

@[simp] theorem bind_eq_ok {x : Except ε α} {f : α → Except ε β} {b : β} :
    (x >>= f) = .ok b ↔ ∃ a, x = .ok a ∧ f a = .ok b := by
  cases x <;> simp [bind, Except.bind]

@[simp] theorem pure_eq_ok {a b : α} : (pure a : Except ε α) = .ok b ↔ a = b := by
  simp [pure, Except.pure]

@[simp] theorem throw_eq_ok {e : ε} {a : α} : (throw e : Except ε α) = .ok a ↔ False := by
  simp [throw, throwThe, MonadExceptOf.throw]

@[simp] theorem ok_bind {a : α} {f : α → Except ε β} : (Except.ok a >>= f) = f a := rfl

theorem forM_eq_ok {l : List α} {f : α → Except ε Unit} : l.forM f = .ok () ↔ ∀ a ∈ l, f a = .ok () := by
  induction l with
  | nil => simp [List.forM]
  | cons a l ih =>
    rw [List.forM_eq_forM] at ih
    have hunit : (∃ u, f a = .ok u) ↔ f a = .ok () := ⟨fun ⟨(), h⟩ => h, fun h => ⟨(), h⟩⟩
    simp [ih, hunit]

/-! ## Postconditions -/

/-- The computation returns only what `P` allows and fails only with what `Q` allows. -/
def Post (x : Except ε α) (P : α → Prop) (Q : ε → Prop) : Prop :=
  match x with
  | .ok a => P a
  | .error e => Q e

variable {x : Except ε α} {f : α → Except ε β} {P P' : α → Prop} {Q Q' : ε → Prop} {R : β → Prop}

theorem Post.ok {a : α} (h : P a) : Post (.ok a : Except ε α) P Q := h

theorem Post.error {e : ε} (h : Q e) : Post (.error e : Except ε α) P Q := h

theorem Post.pure {a : α} (h : P a) : Post (Pure.pure a : Except ε α) P Q := h

theorem Post.throw {e : ε} (h : Q e) : Post (MonadExcept.throw e : Except ε α) P Q := h

theorem Post.bind (hx : Post x P Q) (hf : ∀ a, P a → Post (f a) R Q) : Post (x >>= f) R Q := by
  cases x with
  | ok a => exact hf a hx
  | error e => exact hx

/-- Where a failure is of no interest, neither is what the first step returned. -/
theorem Post.skip (hf : ∀ a, Post (f a) R (fun _ => True)) : Post (x >>= f) R (fun _ => True) := by
  cases x with
  | ok a => exact hf a
  | error e => exact trivial

/-- A choice of two computations with the same continuation. -/
theorem Post.ite_bind {c : Prop} [Decidable c] {y : Except ε α} (h : Post (if c then x else y) P Q)
    (hf : ∀ a, P a → Post (f a) R Q) : Post (if c then x >>= f else y >>= f) R Q := by
  by_cases hc : c
  · rw [if_pos hc] at h ⊢
    exact h.bind hf
  · rw [if_neg hc] at h ⊢
    exact h.bind hf

theorem Post.mono (hx : Post x P Q) (hP : ∀ a, P a → P' a) (hQ : ∀ e, Q e → Q' e) : Post x P' Q' := by
  cases x with
  | ok a => exact hP a hx
  | error e => exact hQ e hx

theorem Post.weaken (hx : Post x P Q) : Post x P (fun _ => True) := hx.mono (fun _ h => h) fun _ _ => trivial

theorem Post.of_ok {a : α} (hx : Post x P Q) (h : x = .ok a) : P a := by
  rw [h] at hx
  exact hx

theorem Post.of_error {e : ε} (hx : Post x P Q) (h : x = .error e) : Q e := by
  rw [h] at hx
  exact hx

/-- What is known of a computation is known of its result. -/
theorem Post.intro (hP : ∀ a, x = .ok a → P a) (hQ : ∀ e, x = .error e → Q e) : Post x P Q := by
  cases x with
  | ok a => exact hP a rfl
  | error e => exact hQ e rfl

theorem Post.and (h : Post x P Q) (h' : Post x P' Q') :
    Post x (fun a => P a ∧ P' a) (fun e => Q e ∧ Q' e) := by
  cases x with
  | ok a => exact ⟨h, h'⟩
  | error e => exact ⟨h, h'⟩

/-- A computation that cannot fail meets any postcondition on errors. -/
theorem Post.never (h : Post x P (fun _ => False)) : Post x P Q := h.mono (fun _ h => h) fun _ h => h.elim

theorem Post.total (h : Post x P (fun _ => False)) : ∃ a, x = .ok a ∧ P a := by
  cases x with
  | ok a => exact ⟨a, rfl, h⟩
  | error e => exact absurd h id

/-- An invariant of the steps of a fold holds of its result. -/
theorem Post.foldlM {f : σ → α → Except ε σ} {l : List α} {s : σ} (I : List α → σ → Prop) (hstart : I [] s)
    (hstep : ∀ done a rest s, l = done ++ a :: rest → I done s → Post (f s a) (I (done ++ [a])) Q) :
    Post (l.foldlM f s) (I l) Q := by
  have key : ∀ rest done s, l = done ++ rest → I done s → Post (rest.foldlM f s) (I l) Q := by
    intro rest
    induction rest with
    | nil =>
      intro done s hl hI
      rw [List.append_nil] at hl
      exact Post.pure (hl ▸ hI)
    | cons a rest ih =>
      intro done s hl hI
      rw [List.foldlM_cons]
      exact (hstep done a rest s hl hI).bind fun s₁ hI₁ => ih (done ++ [a]) s₁ (by simpa using hl) hI₁
  exact key l [] s rfl hstart

/-- A loop over a list succeeds only when every step does. -/
theorem Post.forM {l : List α} {f : α → Except ε Unit} {I : α → Prop}
    (hstep : ∀ a ∈ l, Post (f a) (fun _ => I a) Q) : Post (l.forM f) (fun _ => ∀ a ∈ l, I a) Q := by
  induction l with
  | nil => exact Post.pure (by simp)
  | cons a l ih =>
    refine (hstep a (by simp)).bind fun _ ha => ?_
    refine (ih fun b hb => hstep b (by simp [hb])).mono (fun _ hl => ?_) fun _ h => h
    simpa using ⟨ha, hl⟩

end Irokle.Outcome
