import Mathlib

/-!
# Keys of fixed-width parts

Numbers written in a fixed number of bytes, the most significant first, and keys put together from
such parts. Keys of one layout share exactly the parts that a common prefix covers, and a range of the
byte order that ends where the extensions of a prefix end is a scan of that prefix.

* `take_eq_of_flatten` — a prefix that ends between two parts fixes the parts before it;
* `prefix_of_between`, `lt_next_iff` — ranges and prefixes.
-/

namespace Irokle.Keys

open List

/-- A key is a string of bytes. -/
abbrev Key := List (Fin 256)

variable {w m n k : ℕ}

/-- `n` in `w` bytes. -/
def be : ℕ → ℕ → Key
  | 0, _ => []
  | w + 1, n => Fin.ofNat 256 (n / 256 ^ w) :: be w (n % 256 ^ w)

@[simp] theorem length_be (w n : ℕ) : (be w n).length = w := by
  induction w generalizing n with
  | zero => rfl
  | succ w ih => rw [be, length_cons, ih]

theorem be_inj (hm : m < 256 ^ w) (hn : n < 256 ^ w) (h : be w m = be w n) : m = n := by
  induction w generalizing m n with
  | zero =>
    rw [pow_zero, Nat.lt_one_iff] at hm hn
    rw [hm, hn]
  | succ w ih =>
    have hpos : 0 < 256 ^ w := by positivity
    have hdiv : ∀ {n}, n < 256 ^ (w + 1) → n / 256 ^ w < 256 := fun h => by
      rwa [Nat.div_lt_iff_lt_mul hpos, ← pow_succ']
    rw [be, be, List.cons.injEq, Fin.ext_iff, Fin.val_ofNat, Fin.val_ofNat, Nat.mod_eq_of_lt (hdiv hm),
      Nat.mod_eq_of_lt (hdiv hn)] at h
    rw [← Nat.div_add_mod m (256 ^ w), ← Nat.div_add_mod n (256 ^ w), h.1,
      ih (Nat.mod_lt _ hpos) (Nat.mod_lt _ hpos) h.2]

section Lists

variable {α : Type} {p : List α}

/-- **A prefix that ends between two parts fixes the parts before it.** -/
theorem take_eq_of_flatten {l l' : List (List α)} (hlen : l.map List.length = l'.map List.length)
    (h : (l.take k).flatten <+: l'.flatten) : l'.take k = l.take k := by
  induction k generalizing l l' with
  | zero => rfl
  | succ k ih =>
    cases l with
    | nil =>
      rw [map_nil, eq_comm, map_eq_nil_iff] at hlen
      rw [hlen]
    | cons a l =>
      cases l' with
      | nil => cases hlen
      | cons b l' =>
        rw [map_cons, map_cons, List.cons.injEq] at hlen
        obtain ⟨rest, hrest⟩ := h
        rw [take_succ_cons, flatten_cons, flatten_cons, append_assoc] at hrest
        obtain ⟨rfl, htail⟩ := append_inj hrest hlen.1
        rw [take_succ_cons, take_succ_cons, ih hlen.2 ⟨rest, htail⟩]

variable [LinearOrder α] {x y z : List α} {a b : α}

theorem cons_le_cons : a :: x ≤ b :: y ↔ a < b ∨ a = b ∧ x ≤ y := by
  rw [← not_lt, cons_lt_cons_iff]
  rcases lt_trichotomy a b with h | rfl | h
  · simp [h, h.not_gt, h.ne']
  · simp
  · simp [h, h.not_gt, h.ne']

theorem append_lt_append : p ++ x < p ++ y ↔ x < y := by
  induction p with
  | nil => rfl
  | cons a p ih => simp [ih]

theorem append_le_append : p ++ x ≤ p ++ y ↔ x ≤ y := by
  rw [← not_lt, append_lt_append, not_lt]

/-- **What lies between a prefix and an extension of it extends the prefix.** -/
theorem prefix_of_between (h : p ≤ z) (h' : z ≤ p ++ y) : p <+: z := by
  induction p generalizing z with
  | nil => exact nil_prefix
  | cons a p ih =>
    cases z with
    | nil => exact absurd h (by simp)
    | cons c z =>
      rw [cons_append, cons_le_cons] at h'
      rw [cons_le_cons] at h
      have hac : a = c := le_antisymm (h.elim le_of_lt fun h => h.1.le) (h'.elim le_of_lt fun h => h.1.le)
      subst hac
      exact cons_prefix_cons.2 ⟨rfl, ih (h.resolve_left (lt_irrefl _)).2 (h'.resolve_left (lt_irrefl _)).2⟩

end Lists

/-- A range that ends with the next letter is a prefix scan. -/
theorem lt_next_iff {p z : Key} {a b : Fin 256} (hab : a.val + 1 = b.val) (h : p ++ [a] ≤ z) :
    z < p ++ [b] ↔ p ++ [a] <+: z := by
  have hlt : a < b := Fin.lt_def.2 (by omega)
  have hle : p ≤ p ++ [a] := by
    have hnil : p ++ [] ≤ p ++ [a] := append_le_append.2 (nil_lt_cons a []).le
    rwa [append_nil] at hnil
  constructor
  · intro h'
    obtain ⟨rest, rfl⟩ : p <+: z := prefix_of_between (hle.trans h) h'.le
    rw [append_le_append] at h
    rw [append_lt_append] at h'
    cases rest with
    | nil => exact absurd h (by simp)
    | cons c rest =>
      have hc : c < b := (cons_lt_cons_iff.1 h').resolve_right fun h => by simp at h
      obtain rfl : a = c := ((cons_le_cons.1 h).resolve_left fun hac => by rw [Fin.lt_def] at hac hc; omega).1
      exact (prefix_append_right_inj p).2 (by simp)
  · rintro ⟨rest, rfl⟩
    rw [append_assoc, append_lt_append]
    exact cons_lt_cons_iff.2 (Or.inl hlt)

theorem le_replicate {l : Key} (h : l.length ≤ w) : l ≤ List.replicate w (Fin.last 255) := by
  induction l generalizing w with
  | nil => cases w with
    | zero => exact le_refl _
    | succ w => exact (nil_lt_cons _ _).le
  | cons a l ih =>
    cases w with
    | zero => cases h
    | succ w =>
      rw [replicate_succ, cons_le_cons]
      exact (Fin.le_last a).lt_or_eq.imp_right fun ha => ⟨ha, ih (Nat.le_of_succ_le_succ h)⟩

end Irokle.Keys
