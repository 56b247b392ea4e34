import Mathlib

/-!
# Causal histories

A history is a set of events that name the events they depend on. Every event is written by an
actor at a position of that actor's chain, and names its predecessor in the chain among its
dependencies, so a per-actor maximum over the causal past determines the past exactly.

* `Shape.Anc` — strict ancestors; `Shape.anc_iff_of_closed` — they do not depend on the history
  an event is looked up in, as long as it is closed under dependencies;
* `Shape.covers_of_join` — the join of the clocks of some events covers them and their ancestors;
* `Shape.below_head` — every event lies below an event nothing depends on.
-/

namespace Irokle.Causal

variable {ε ι α : Type*}

/-- How events are named, and what an event names. -/
structure Shape (ε ι α : Type*) where
  ident : ε → ι
  deps : ε → Set ι
  actor : ε → α
  seq : ε → ℕ

namespace Shape

variable (X : Shape ε ι α)

/-- `y` depends on `x`, both in the history. -/
def Edge (S : Set ε) (x y : ε) : Prop := x ∈ S ∧ y ∈ S ∧ X.ident x ∈ X.deps y

/-- `x` is a strict ancestor of `y` inside the history. -/
def Anc (S : Set ε) : ε → ε → Prop := Relation.TransGen (X.Edge S)

/-- The strict ancestors of an event. -/
def past (S : Set ε) (y : ε) : Set ε := {x | X.Anc S x y}

/-- Every dependency of an event of the history is in it. -/
def Closed (S : Set ε) : Prop := ∀ y ∈ S, ∀ d ∈ X.deps y, ∃ x ∈ S, X.ident x = d

/-- Positions start at one, and every later position depends on the one before it. -/
def Chained (S : Set ε) : Prop :=
  ∀ y ∈ S, 1 ≤ X.seq y ∧
    (1 < X.seq y → ∃ x ∈ S, X.ident x ∈ X.deps y ∧ X.actor x = X.actor y ∧ X.seq x + 1 = X.seq y)

/-- The events nothing in the history depends on. -/
def heads (S : Set ε) : Set ε := {x | x ∈ S ∧ ∀ y ∈ S, X.ident x ∉ X.deps y}

/-- `clock` counts, for each actor, exactly the positions of the strict ancestors of `y`. -/
def Exact (S : Set ε) (y : ε) (clock : α → ℕ) : Prop :=
  ∀ a s, 1 ≤ s → (s ≤ clock a ↔ ∃ x, X.Anc S x y ∧ X.actor x = a ∧ X.seq x = s)

variable {X} {S T : Set ε} {x y z : ε}

theorem Edge.mono (hST : S ⊆ T) (h : X.Edge S x y) : X.Edge T x y := ⟨hST h.1, hST h.2.1, h.2.2⟩

theorem Anc.mono (hST : S ⊆ T) (h : X.Anc S x y) : X.Anc T x y :=
  Relation.TransGen.mono (fun _ _ => Edge.mono hST) _ _ h

theorem Anc.mem_left (h : X.Anc S x y) : x ∈ S := by
  induction h with
  | single he => exact he.1
  | tail _ _ ih => exact ih

theorem past_subset : X.past S y ⊆ S := fun _ h => Anc.mem_left h

theorem Anc.trans (h : X.Anc S x y) (h' : X.Anc S y z) : X.Anc S x z := Relation.TransGen.trans h h'

theorem anc_iff : X.Anc S x z ↔ ∃ y, X.Edge S y z ∧ (x = y ∨ X.Anc S x y) := by
  constructor
  · intro h
    cases h with
    | single he => exact ⟨x, he, Or.inl rfl⟩
    | tail h he => exact ⟨_, he, Or.inr h⟩
  · rintro ⟨y, he, rfl | h⟩
    · exact Relation.TransGen.single he
    · exact Relation.TransGen.tail h he

/-- Ancestors in a larger history are ancestors in a closed one, where names are unique. -/
theorem Anc.of_closed (hS : X.Closed S) (hST : S ⊆ T) (hinj : Set.InjOn X.ident T) (hy : y ∈ S)
    (h : X.Anc T x y) : X.Anc S x y := by
  have edge : ∀ {u v}, v ∈ S → X.Edge T u v → X.Edge S u v := by
    intro u v hv he
    obtain ⟨u', hu', hid⟩ := hS v hv _ he.2.2
    obtain rfl : u' = u := hinj (hST hu') he.1 hid
    exact ⟨hu', hv, he.2.2⟩
  induction h with
  | single he => exact Relation.TransGen.single (edge hy he)
  | tail _ he ih => exact Relation.TransGen.tail (ih (edge hy he).1) (edge hy he)

theorem anc_iff_of_closed (hS : X.Closed S) (hST : S ⊆ T) (hinj : Set.InjOn X.ident T) (hy : y ∈ S) :
    X.Anc T x y ↔ X.Anc S x y :=
  ⟨fun h => h.of_closed hS hST hinj hy, fun h => h.mono hST⟩

theorem past_eq_of_closed (hS : X.Closed S) (hST : S ⊆ T) (hinj : Set.InjOn X.ident T) (hy : y ∈ S) :
    X.past T y = X.past S y :=
  Set.ext fun _ => anc_iff_of_closed hS hST hinj hy

/-! ## Clocks -/

/-- Below an event lies its actor's chain down to position one. -/
theorem Chained.down (hS : X.Chained S) {s : ℕ} (hs : 1 ≤ s) (hy : y ∈ S) (hlt : s < X.seq y) :
    ∃ x, X.Anc S x y ∧ X.actor x = X.actor y ∧ X.seq x = s := by
  induction hn : X.seq y using Nat.strong_induction_on generalizing y with
  | _ n ih =>
    obtain ⟨x, hx, hdep, hactor, hseq⟩ := (hS y hy).2 (by omega)
    have hxy : X.Anc S x y := Relation.TransGen.single ⟨hx, hy, hdep⟩
    rcases Nat.lt_or_ge s (X.seq x) with hlt' | hge
    · obtain ⟨w, hw, hwa, hws⟩ := ih (X.seq x) (by omega) hx hlt' rfl
      exact ⟨w, hw.trans hxy, hwa.trans hactor, hws⟩
    · exact ⟨x, hxy, hactor, by omega⟩

/-- The join of the clocks of some events, with the events themselves, counts exactly the positions
of these events and their ancestors. -/
theorem covers_of_join (hS : X.Chained S) {D : Set ε} (hD : D ⊆ S) {clock : α → ℕ} {obs : ε → α → ℕ}
    (hobs : ∀ x ∈ D, X.Exact S x (obs x))
    (hjoin : ∀ a s, 1 ≤ s → (s ≤ clock a ↔ ∃ x ∈ D, s ≤ obs x a ∨ X.actor x = a ∧ s ≤ X.seq x))
    {a : α} {s : ℕ} (hs : 1 ≤ s) :
    s ≤ clock a ↔ ∃ x, (∃ y ∈ D, x = y ∨ X.Anc S x y) ∧ X.actor x = a ∧ X.seq x = s := by
  rw [hjoin a s hs]
  constructor
  · rintro ⟨y, hy, hle | ⟨rfl, hle⟩⟩
    · obtain ⟨w, hw, hwa, hws⟩ := (hobs y hy a s hs).1 hle
      exact ⟨w, ⟨y, hy, Or.inr hw⟩, hwa, hws⟩
    · rcases Nat.lt_or_ge s (X.seq y) with hlt | hge
      · obtain ⟨w, hw, hwa, hws⟩ := hS.down hs (hD hy) hlt
        exact ⟨w, ⟨y, hy, Or.inr hw⟩, hwa, hws⟩
      · exact ⟨y, ⟨y, hy, Or.inl rfl⟩, rfl, by omega⟩
  · rintro ⟨w, ⟨y, hy, rfl | hwy⟩, rfl, rfl⟩
    · exact ⟨w, hy, Or.inr ⟨rfl, le_rfl⟩⟩
    · exact ⟨y, hy, Or.inl ((hobs y hy _ _ hs).2 ⟨w, hwy, rfl, rfl⟩)⟩

/-! ## Heads -/

/-- With ranks that grow along dependencies and are bounded, every event lies below a head. -/
theorem below_head (rank : ε → ℕ) (bound : ℕ) (hrank : ∀ u v, X.Edge S u v → rank u < rank v)
    (hbound : ∀ u ∈ S, rank u ≤ bound) (hx : x ∈ S) : ∃ h ∈ X.heads S, x = h ∨ X.Anc S x h := by
  induction hn : bound - rank x using Nat.strong_induction_on generalizing x with
  | _ n ih =>
    by_cases hhead : x ∈ X.heads S
    · exact ⟨x, hhead, Or.inl rfl⟩
    · obtain ⟨y, hy, hdep⟩ : ∃ y ∈ S, X.ident x ∈ X.deps y := by
        by_contra hno
        push Not at hno
        exact hhead ⟨hx, hno⟩
      have he : X.Edge S x y := ⟨hx, hy, hdep⟩
      have h1 := hrank x y he
      have h2 := hbound y hy
      obtain ⟨h, hh, hyh⟩ := ih (bound - rank y) (by omega) hy rfl
      refine ⟨h, hh, Or.inr ?_⟩
      rcases hyh with rfl | hyh
      · exact Relation.TransGen.single he
      · exact Relation.TransGen.head he hyh

end Shape

end Irokle.Causal
