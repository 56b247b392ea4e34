import Mathlib

/-!
# The greatest elements seen so far

A bounded list that keeps the `k` greatest of the elements it was given. `IsGreatestOf k S l` says so
without mentioning the order in which they came: `l` ascends, holds at most `k` elements of `S`, and
leaves one out only when it is full of greater ones.

* `IsGreatestOf.eq` — the list is determined by the set;
* `keep_eq` — appending, sorting and dropping the front is adding to the set;
* `IsTop` — the greatest element alone, with the same rules.
-/

namespace Irokle.Greatest

open List

variable {α : Type*} [LinearOrder α]

/-- The `k` greatest elements of a set, ascending. -/
def greatest (k : ℕ) (S : Finset α) : List α := S.sort.drop (S.card - k)

/-- Append an element, sort, and drop what exceeds `k` at the front. -/
def keep (k : ℕ) (l : List α) (a : α) : List α :=
  let sorted := (l ++ [a]).insertionSort (· ≤ ·)
  sorted.drop (sorted.length - k)

/-- `l` ascends through the `k` greatest elements of `S`. -/
structure IsGreatestOf (k : ℕ) (S : Finset α) (l : List α) : Prop where
  sorted : l.Pairwise (· < ·)
  mem : ∀ x ∈ l, x ∈ S
  length : l.length ≤ k
  full : ∀ x ∈ S, x ∉ l → l.length = k ∧ ∀ y ∈ l, x < y

variable {k : ℕ} {S : Finset α} {l : List α} {a x y : α}

theorem sort_pairwise (S : Finset α) : S.sort.Pairwise (· < ·) := (Finset.sortedLT_sort S).pairwise

theorem nodup_of_lt (h : l.Pairwise (· < ·)) : l.Nodup := h.imp fun hxy => hxy.ne

theorem isGreatestOf_greatest (k : ℕ) (S : Finset α) : IsGreatestOf k S (greatest k S) := by
  have hsplit : S.sort.take (S.card - k) ++ greatest k S = S.sort := take_append_drop _ _
  have hlt := sort_pairwise S
  rw [← hsplit, pairwise_append] at hlt
  refine ⟨hlt.2.1, fun x hx => ?_, ?_, fun x hx hno => ?_⟩
  · exact (Finset.mem_sort _).1 (mem_of_mem_drop hx)
  · rw [greatest, length_drop, Finset.length_sort]
    omega
  · have hx' : x ∈ S.sort.take (S.card - k) := by
      have := (Finset.mem_sort (· ≤ ·)).2 hx
      rw [← hsplit, mem_append] at this
      exact this.resolve_right hno
    refine ⟨?_, hlt.2.2 x hx'⟩
    have hpos := length_pos_of_mem hx'
    rw [length_take] at hpos
    rw [greatest, length_drop, Finset.length_sort]
    omega

/-- The list is determined by the set. -/
theorem IsGreatestOf.eq (h : IsGreatestOf k S l) : l = greatest k S := by
  -- what is left out comes before the list in the sorted set
  set rest := S \ l.toFinset with hrest
  have hmem : ∀ x, x ∈ rest ↔ x ∈ S ∧ x ∉ l := by simp [hrest]
  have hsorted : (rest.sort ++ l).Pairwise (· < ·) := by
    refine pairwise_append.2 ⟨sort_pairwise rest, h.sorted, fun x hx y hy => ?_⟩
    obtain ⟨hxS, hxl⟩ := (hmem x).1 ((Finset.mem_sort _).1 hx)
    exact (h.full x hxS hxl).2 y hy
  have hset : (rest.sort ++ l).toFinset = S := by
    ext x
    rw [mem_toFinset, mem_append, Finset.mem_sort, hmem]
    constructor
    · rintro (hx | hx)
      · exact hx.1
      · exact h.mem x hx
    · intro hx
      by_cases hxl : x ∈ l
      · exact Or.inr hxl
      · exact Or.inl ⟨hx, hxl⟩
  have hsort : S.sort = rest.sort ++ l := by
    have hs := (toFinset_sort (· ≤ ·) (nodup_of_lt hsorted)).2 (hsorted.imp fun hxy => hxy.le)
    rw [hset] at hs
    exact hs
  have hcard : S.card = rest.card + l.length := by
    rw [← Finset.length_sort (· ≤ ·), hsort, length_append, Finset.length_sort]
  have hexcess : S.card - k = rest.card := by
    have hle := h.length
    rcases rest.eq_empty_or_nonempty with hempty | ⟨x, hx⟩
    · rw [hempty, Finset.card_empty] at hcard ⊢
      omega
    · have := (h.full x ((hmem x).1 hx).1 ((hmem x).1 hx).2).1
      omega
  rw [greatest, hsort, hexcess, drop_append_of_le_length (by rw [Finset.length_sort]),
    ← Finset.length_sort (· ≤ ·), drop_length, nil_append]

theorem mem_greatest_of_card_le (h : S.card ≤ k) : x ∈ greatest k S ↔ x ∈ S := by
  rw [greatest, Nat.sub_eq_zero_of_le h, drop_zero, Finset.mem_sort]

/-- What is greatest after one more element is greatest among what was and that element. -/
theorem greatest_insert (k : ℕ) (S : Finset α) (a : α) :
    greatest k (insert a (greatest k S).toFinset) = greatest k (insert a S) := by
  have L := isGreatestOf_greatest k S
  have M := isGreatestOf_greatest k (insert a (greatest k S).toFinset)
  set l := greatest k S with hl
  set T := insert a l.toFinset with hT
  set m := greatest k T with hm
  have hTmem : ∀ x, x ∈ T ↔ x = a ∨ x ∈ l := by simp [hT]
  have hmlen : m.toFinset.card = m.length := toFinset_card_of_nodup (nodup_of_lt M.sorted)
  have hllen : l.toFinset.card = l.length := toFinset_card_of_nodup (nodup_of_lt L.sorted)
  -- an element of `T` that `m` leaves out exists as soon as `T` is the larger one
  have homit : m.length < T.card → ∃ z ∈ T, z ∉ m := by
    intro hlt
    obtain ⟨z, hz, hzm⟩ := Finset.exists_mem_notMem_of_card_lt_card (hmlen ▸ hlt : m.toFinset.card < T.card)
    exact ⟨z, hz, fun h => hzm (mem_toFinset.2 h)⟩
  refine IsGreatestOf.eq ⟨M.sorted, fun x hx => ?_, M.length, fun x hx hxm => ?_⟩
  · rcases (hTmem x).1 (M.mem x hx) with rfl | hxl
    · exact Finset.mem_insert_self _ _
    · exact Finset.mem_insert_of_mem (L.mem x hxl)
  · by_cases hxT : x ∈ T
    · exact M.full x hxT hxm
    · have hxS : x ∈ S := (Finset.mem_insert.1 hx).resolve_left fun h => hxT ((hTmem x).2 (Or.inl h))
      have hxl : x ∉ l := fun h => hxT ((hTmem x).2 (Or.inr h))
      obtain ⟨hlk, hxlt⟩ := L.full x hxS hxl
      have hkT : k ≤ T.card := by
        rw [← hlk, ← hllen]
        exact Finset.card_le_card (Finset.subset_insert a _)
      refine ⟨?_, fun y hy => ?_⟩
      · by_contra hne
        have hle := M.length
        obtain ⟨z, hz, hzm⟩ := homit (by omega)
        exact hne (M.full z hz hzm).1
      · rcases (hTmem y).1 (M.mem y hy) with rfl | hyl
        · by_cases hyl : y ∈ l
          · exact hxlt y hyl
          · -- `m` is full with the new element, so it leaves out an old one, which lies between
            have hcard : T.card = l.length + 1 := by
              rw [hT, Finset.card_insert_of_notMem fun h => hyl (mem_toFinset.1 h), hllen]
            have hle := M.length
            obtain ⟨z, hz, hzm⟩ := homit (by omega)
            have hzl : z ∈ l := ((hTmem z).1 hz).resolve_left fun h => hzm (h ▸ hy)
            exact (hxlt z hzl).trans ((M.full z hz hzm).2 y hy)
        · exact hxlt y hyl

/-- **Appending, sorting and dropping the front adds to the set.** -/
theorem keep_eq (ha : a ∉ greatest k S) : keep k (greatest k S) a = greatest k (insert a S) := by
  have L := isGreatestOf_greatest k S
  have hnodup : (greatest k S ++ [a]).Nodup :=
    nodup_append.2 ⟨nodup_of_lt L.sorted, nodup_singleton a, by
      rintro x hx y hy rfl
      exact ha (mem_singleton.1 hy ▸ hx)⟩
  set sorted := (greatest k S ++ [a]).insertionSort (· ≤ ·) with hsorted
  have hperm : sorted.Perm (greatest k S ++ [a]) := perm_insertionSort _ _
  have hset : sorted.toFinset = insert a (greatest k S).toFinset := by
    ext x
    rw [mem_toFinset, hperm.mem_iff]
    simp [or_comm]
  have hsort : (insert a (greatest k S).toFinset).sort = sorted := by
    rw [← hset]
    exact (toFinset_sort (· ≤ ·) (hperm.nodup_iff.2 hnodup)).2 (pairwise_insertionSort _ _)
  have hcard : (insert a (greatest k S).toFinset).card = sorted.length := by
    rw [← Finset.length_sort (· ≤ ·), hsort]
  rw [← greatest_insert, greatest.eq_def k (insert a _), hsort, hcard]
  rfl

/-! ## The greatest element -/

/-- `c` is the greatest element of `S`, and `none` only when there is none. -/
structure IsTop (S : Set α) (c : Option α) : Prop where
  mem : ∀ x, c = some x → x ∈ S
  le : ∀ x ∈ S, ∃ y, c = some y ∧ x ≤ y

variable {W V : Set α} {c d : Option α}

theorem IsTop.isGreatest (h : IsTop W c) : c = some x ↔ IsGreatest W x := by
  constructor
  · rintro rfl
    refine ⟨h.mem x rfl, fun z hz => ?_⟩
    obtain ⟨y, hy, hle⟩ := h.le z hz
    cases hy
    exact hle
  · rintro ⟨hx, hmax⟩
    obtain ⟨y, rfl, hle⟩ := h.le x hx
    rw [le_antisymm (hmax (h.mem y rfl)) hle]

/-- The set determines it. -/
theorem IsTop.unique (h : IsTop W c) (h' : IsTop W d) : c = d :=
  Option.ext fun x => by rw [h.isGreatest, h'.isGreatest]

/-- An element above all others is the greatest from then on. -/
theorem IsTop.raise (h : IsTop W c) (ha : ∀ x, c = some x → x < a) : IsTop (insert a W) (some a) := by
  refine ⟨fun x hx => ?_, fun x hx => ⟨a, rfl, ?_⟩⟩
  · cases hx
    exact Set.mem_insert _ _
  · rcases hx with rfl | hx
    · exact le_rfl
    · obtain ⟨y, hy, hle⟩ := h.le x hx
      exact hle.trans (ha y hy).le

/-- Any other element leaves it. -/
theorem IsTop.keep (h : IsTop W c) (hx : c = some x) (ha : a ≤ x) : IsTop (insert a W) c := by
  refine ⟨fun y hy => Set.mem_insert_of_mem _ (h.mem y hy), fun y hy => ?_⟩
  rcases hy with rfl | hy
  · exact ⟨x, hx, ha⟩
  · exact h.le y hy

/-- The greater of the two. -/
theorem IsTop.max (h : IsTop W c) (a : α) : IsTop (insert a W) (some (max (c.getD a) a)) := by
  cases c with
  | none =>
    rw [Option.getD_none, max_self]
    exact h.raise (by simp)
  | some x =>
    rw [Option.getD_some]
    rcases lt_or_ge x a with hlt | hge
    · rw [max_eq_right hlt.le]
      exact h.raise fun y hy => by cases hy; exact hlt
    · rw [max_eq_left hge]
      exact h.keep rfl hge

end Irokle.Greatest
