import Mathlib

/-!
# Digits, ranks and bitmaps

What a radix tree rests on: the digits of a number of fixed width, the position of a digit in an
ascending list, and the bitmap of such a list.

* `digit_lt_lt` — the first digit where two numbers differ orders them;
* `exists_cut`, `Cut.countP_eq` — a digit cuts an ascending list at its rank;
* `countOnes_below_bitsOf` — the rank of a digit is a population count of the bitmap.
-/

namespace Irokle

open List

namespace Radix

/-! ## Digits of a number of fixed width -/

section Digits

variable {b w n m i k : ℕ}

/-- The number that the first `k` of the `w` digits of `n` form. -/
def lead (b w n k : ℕ) : ℕ := n / b ^ (w - k)

/-- The digit of `n` at position `i`, the most significant one first. -/
def digit (b w n i : ℕ) : ℕ := lead b w n (i + 1) % b

theorem lead_succ_div (h : i < w) : lead b w n (i + 1) / b = lead b w n i := by
  have hw : w - i = w - (i + 1) + 1 := by omega
  rw [lead, lead, Nat.div_div_eq_div_mul, hw, pow_succ]

theorem lead_eq_of_digit_eq (hn : n < b ^ w) (hm : m < b ^ w) (hk : k ≤ w)
    (h : ∀ i < k, digit b w n i = digit b w m i) :
    lead b w n k = lead b w m k := by
  induction k with
  | zero => simp [lead, Nat.div_eq_of_lt hn, Nat.div_eq_of_lt hm]
  | succ k ih =>
    -- a prefix is the shorter one followed by one digit
    have hprev := ih (by omega) fun i hi => h i (by omega)
    rw [← lead_succ_div (n := n) hk, ← lead_succ_div (n := m) hk] at hprev
    have hlast : lead b w n (k + 1) % b = lead b w m (k + 1) % b := h k (by omega)
    rw [← Nat.div_add_mod (lead b w n (k + 1)) b, ← Nat.div_add_mod (lead b w m (k + 1)) b, hprev, hlast]

/-- A number is determined by its digits. -/
theorem eq_of_digit_eq (hn : n < b ^ w) (hm : m < b ^ w) (h : ∀ i < w, digit b w n i = digit b w m i) :
    n = m := by
  have hlead := lead_eq_of_digit_eq hn hm le_rfl h
  simpa [lead] using hlead

/-- **The first digit where two numbers differ orders them.** -/
theorem digit_lt_lt (hn : n < b ^ w) (hm : m < b ^ w) (hi : i < w) (h : ∀ j < i, digit b w n j = digit b w m j)
    (hlt : digit b w n i < digit b w m i) : n < m := by
  have hlead := lead_eq_of_digit_eq hn hm (Nat.le_of_lt hi) h
  rw [← lead_succ_div (n := n) hi, ← lead_succ_div (n := m) hi] at hlead
  have hlt' : lead b w n (i + 1) < lead b w m (i + 1) := by
    rw [← Nat.div_add_mod (lead b w n (i + 1)) b, ← Nat.div_add_mod (lead b w m (i + 1)) b, hlead]
    exact Nat.add_lt_add_left hlt _
  exact Nat.lt_of_div_lt_div hlt'

end Digits

/-! ## Ranks in an ascending list -/

section Ranks

variable {α : Type} {f : α → ℕ} {l : List α} {d : ℕ} {x : α}

theorem insertIdx_append_length (L R : List α) (x : α) : (L ++ R).insertIdx L.length x = L ++ x :: R := by
  induction L with
  | nil => simp
  | cons y L ih => simp [ih]

/-- The digit `d` cuts a list in what is below it, the element at it if there is one, and what is above it. -/
structure Cut (f : α → ℕ) (d : ℕ) (l L : List α) (old : Option α) (R : List α) : Prop where
  eq : l = L ++ (old.toList ++ R)
  below : ∀ x ∈ L, f x < d
  here : ∀ x ∈ old, f x = d
  above : ∀ x ∈ R, d < f x

/-- **Every digit cuts an ascending list.** -/
theorem exists_cut (h : l.Pairwise fun x y => f x < f y) (d : ℕ) : ∃ L old R, Cut f d l L old R := by
  induction l with
  | nil => exact ⟨[], none, [], rfl, by simp, by simp, by simp⟩
  | cons x l ih =>
    obtain ⟨hx, hl⟩ := pairwise_cons.1 h
    rcases lt_trichotomy (f x) d with hlt | rfl | hgt
    · obtain ⟨L, old, R, rfl, hL, hold, hR⟩ := ih hl
      exact ⟨x :: L, old, R, rfl, by simpa [hlt] using hL, hold, hR⟩
    · exact ⟨[], some x, l, rfl, by simp, by simp, hx⟩
    · exact ⟨[], none, x :: l, rfl, by simp, by simp, by simpa [hgt] using fun y hy => hgt.trans (hx y hy)⟩

theorem mem_put {L R : List α} {new : Option α} : x ∈ L ++ (new.toList ++ R) ↔ x ∈ L ++ R ∨ x ∈ new := by
  simp [or_assoc, or_comm]

namespace Cut

variable {L R : List α} {old new : Option α} (C : Cut f d l L old R)

include C

/-- The rank of the digit is where it cuts the list. -/
theorem countP_eq : (l.countP fun x => f x < d) = L.length := by
  have hL : L.countP (fun x => f x < d) = L.length := by simpa using C.below
  have hR : R.countP (fun x => f x < d) = 0 := by simpa using fun x hx => (C.above x hx).le
  have hold : old.toList.countP (fun x => f x < d) = 0 := by simpa using fun x hx => (C.here x hx).ge
  simp only [C.eq, countP_append, hL, hR, hold, Nat.add_zero]

theorem ne {x : α} (hx : x ∈ L ++ R) : f x ≠ d :=
  (mem_append.1 hx).elim (fun h => (C.below x h).ne) fun h => (C.above x h).ne'

theorem mem {x : α} (hx : x ∈ L ++ R) : x ∈ l := C.eq ▸ mem_put.2 (Or.inl hx)

theorem mem_iff : x ∈ l ∧ f x = d ↔ old = some x := by
  rw [C.eq, mem_put]
  exact ⟨fun h => h.1.resolve_left fun hx => C.ne hx h.2, fun h => ⟨Or.inr h, C.here x h⟩⟩

/-- Another element at the digit, or none. -/
theorem ascending (h : l.Pairwise fun x y => f x < f y) (hnew : ∀ x ∈ new, f x = d) :
    (L ++ (new.toList ++ R)).Pairwise fun x y => f x < f y := by
  rw [C.eq, pairwise_append, pairwise_append] at h
  refine pairwise_append.2 ⟨h.1, pairwise_append.2 ⟨by cases new <;> simp, h.2.1.2.1, fun x hx y hy => ?_⟩,
    fun x hx y hy => ?_⟩
  · exact (hnew x (by simpa using hx)).trans_lt (C.above y hy)
  · rcases mem_append.1 hy with hy | hy
    · exact (C.below x hx).trans_eq (hnew y (by simpa using hy)).symm
    · exact (C.below x hx).trans (C.above y hy)

end Cut

end Ranks

/-! ## Bitmaps -/

section Bitmaps

variable {w : ℕ} {ds : List ℕ} {d i : ℕ}

/-- The number of set bits. -/
def countOnes (bits : BitVec w) : ℕ := (List.range w).countP fun i => bits.getLsbD i

/-- The bitmap with exactly the bits of `ds` set. -/
def bitsOf (w : ℕ) (ds : List ℕ) : BitVec w := ds.foldl (fun bits d => bits ||| 1#w <<< d) 0#w

theorem getLsbD_one_shiftLeft (hi : i < w) : (1#w <<< d).getLsbD i = decide (i = d) := by
  rw [BitVec.getLsbD_shiftLeft, BitVec.getLsbD_one]
  rcases lt_trichotomy i d with h | h | h
  · simp [h, Nat.ne_of_lt h]
  · subst h
    simp [hi]
    omega
  · have hne : ¬i - d = 0 := by omega
    simp [hne, Nat.ne_of_gt h]

theorem getLsbD_foldl_bits (bits : BitVec w) (hi : i < w) :
    (ds.foldl (fun bits d => bits ||| 1#w <<< d) bits).getLsbD i = (bits.getLsbD i || decide (i ∈ ds)) := by
  induction ds generalizing bits with
  | nil => simp
  | cons d ds ih =>
    rw [foldl_cons, ih, BitVec.getLsbD_or, getLsbD_one_shiftLeft hi]
    by_cases h : i = d <;> simp [h]

@[simp] theorem getLsbD_bitsOf (hi : i < w) : (bitsOf w ds).getLsbD i = decide (i ∈ ds) := by
  rw [bitsOf, getLsbD_foldl_bits _ hi]
  simp

/-- A bitmap is the one of a list when it has the same bits set. -/
theorem eq_bitsOf {bits : BitVec w} (h : ∀ i < w, bits.getLsbD i = decide (i ∈ ds)) : bits = bitsOf w ds := by
  refine BitVec.eq_of_getLsbD_eq fun i hi => ?_
  rw [h i hi, getLsbD_bitsOf hi]

theorem bitsOf_insert {ds' : List ℕ} : bitsOf w (ds ++ ds') ||| 1#w <<< d = bitsOf w (ds ++ d :: ds') := by
  refine eq_bitsOf fun i hi => ?_
  rw [BitVec.getLsbD_or, getLsbD_bitsOf hi, getLsbD_one_shiftLeft hi]
  by_cases h : i = d <;> simp [h]

theorem bitsOf_remove {ds' : List ℕ} (h : d ∉ ds ++ ds') :
    bitsOf w (ds ++ d :: ds') &&& ~~~(1#w <<< d) = bitsOf w (ds ++ ds') := by
  refine eq_bitsOf fun i hi => ?_
  rw [BitVec.getLsbD_and, getLsbD_bitsOf hi, BitVec.getLsbD_not, getLsbD_one_shiftLeft hi]
  by_cases hd : i = d
  · subst hd
    simp_all
  · simp [hd, hi]

/-- The bits of an ascending list, counted. -/
theorem countP_mem_range (hs : ds.Pairwise (· < ·)) (hw : ∀ d ∈ ds, d < w) (p : ℕ → Bool) :
    ((List.range w).countP fun i => decide (i ∈ ds) && p i) = ds.countP p := by
  have hperm : ((List.range w).filter fun i => decide (i ∈ ds)).Perm ds := by
    refine (perm_ext_iff_of_nodup (nodup_range.filter _) (hs.imp Nat.ne_of_lt)).2 fun i => ?_
    simp only [mem_filter, mem_range, decide_eq_true_eq, and_iff_right_iff_imp]
    exact hw i
  rw [← hperm.countP_eq, countP_filter]
  simp only [Bool.and_comm]

theorem countOnes_bitsOf (hs : ds.Pairwise (· < ·)) (hw : ∀ d ∈ ds, d < w) :
    countOnes (bitsOf w ds) = ds.length := by
  have hcount := countP_mem_range hs hw fun _ => true
  simp only [Bool.and_true, countP_true] at hcount
  rw [← hcount, countOnes]
  refine countP_congr fun i hi => ?_
  rw [getLsbD_bitsOf (mem_range.1 hi)]

/-- **The rank of a digit is a population count.** -/
theorem countOnes_below_bitsOf {mask : BitVec w} (hs : ds.Pairwise (· < ·)) (hw : ∀ d ∈ ds, d < w)
    (hmask : ∀ i < w, mask.getLsbD i = decide (i < d)) :
    countOnes (bitsOf w ds &&& mask) = ds.countP fun i => i < d := by
  rw [← countP_mem_range hs hw, countOnes]
  refine countP_congr fun i hi => ?_
  rw [BitVec.getLsbD_and, getLsbD_bitsOf (mem_range.1 hi), hmask i (mem_range.1 hi)]

end Bitmaps

end Radix

end Irokle
