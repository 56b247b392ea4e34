import Mathlib

/-!
# Ordered maps and sets

Extensional ordered maps and sets, tuples ordered lexicographically, and maps whose values are
sets (`SetMap`): a set-valued map that keeps no key for an empty set is a binary relation.

* `SetMap.mem_get_insert`, `SetMap.mem_get_erase` — membership after one update;
* `SetMap.NoEmpty` — no key is kept for an empty set, preserved by both updates.
-/

namespace Irokle

instance lawfulEqOrd_linear {α : Type} [LinearOrder α] : Std.LawfulEqOrd α := ⟨fun h => compare_eq_iff_eq.1 h⟩

instance transOrd_linear {α : Type} [LinearOrder α] : Std.TransOrd α := inferInstance

instance lawfulBEq_linear {α : Type} [LinearOrder α] : LawfulBEq α := inferInstance

open Std

attribute [instance] lexOrd

/-- An ordered map with decidable extensional equality. -/
abbrev BTreeMap (α β : Type) [Ord α] := ExtTreeMap α β compare

/-- An ordered set with decidable extensional equality. -/
abbrev BTreeSet (α : Type) [Ord α] := ExtTreeSet α compare

namespace BTreeSet

variable {α : Type} [Ord α] [TransOrd α] {s : BTreeSet α} {a : α}

theorem exists_mem_of_ne_empty (h : s ≠ ∅) : ∃ a, a ∈ s := by
  by_contra hn
  push Not at hn
  exact h (ExtTreeSet.eq_empty_iff_forall_not_mem.2 hn)

theorem ne_empty_of_mem (h : a ∈ s) : s ≠ ∅ := by
  rintro rfl
  simp at h

theorem isEmpty_eq_false_of_mem (h : a ∈ s) : s.isEmpty = false := by
  by_contra hn
  rw [Bool.not_eq_false] at hn
  exact ne_empty_of_mem h (ExtTreeSet.isEmpty_iff.1 hn)

variable [LawfulEqOrd α]

theorem mem_filter {f : α → Bool} : a ∈ s.filter f ↔ a ∈ s ∧ f a = true := by
  rw [ExtTreeSet.mem_filter]
  constructor
  · rintro ⟨h, hf⟩
    exact ⟨h, by rwa [ExtTreeSet.get_eq] at hf⟩
  · rintro ⟨h, hf⟩
    exact ⟨h, by rwa [ExtTreeSet.get_eq]⟩

theorem nodup_toList (s : BTreeSet α) : s.toList.Nodup := ExtTreeSet.distinct_toList.imp fun h => by simpa using h

end BTreeSet

/-- Reading a map restricted to the keys that satisfy `f`. -/
theorem getElem?_filter_key {α β : Type} [Ord α] [TransOrd α] [LawfulEqOrd α] {m : BTreeMap α β} {f : α → Bool}
    {k : α} : (m.filter fun k _ => f k)[k]? = if f k then m[k]? else none := by
  rw [ExtTreeMap.getElem?_filter']
  cases m[k]? <;> cases f k <;> simp

section Entries

variable {α β : Type} [Ord α] [TransOrd α]

/-- A fold whose steps update one key each, and no key twice. -/
theorem getElem?_foldl_update {ε γ : Type} [DecidableEq α] {key : ε → α} {f : BTreeMap α γ → ε → BTreeMap α γ}
    (upd : ε → Option γ → Option γ)
    (hf : ∀ (v : BTreeMap α γ) (e : ε) (b : α), (f v e)[b]? = if key e = b then upd e v[b]? else v[b]?)
    {l : List ε} (hl : (l.map key).Nodup) (v : BTreeMap α γ) :
    (∀ e ∈ l, (l.foldl f v)[key e]? = upd e v[key e]?) ∧ ∀ b : α, (∀ e ∈ l, key e ≠ b) →
      (l.foldl f v)[b]? = v[b]? := by
  induction l generalizing v with
  | nil => simp
  | cons x l ih =>
    obtain ⟨hx, hl⟩ := List.nodup_cons.1 hl
    have hother : ∀ e ∈ l, key x ≠ key e := fun e he heq => hx (heq ▸ List.mem_map_of_mem he)
    obtain ⟨hin, hout⟩ := ih hl (f v x)
    refine ⟨fun e he => ?_, fun b hb => ?_⟩
    · rcases List.mem_cons.1 he with rfl | he
      · rw [List.foldl_cons, hout (key e) fun e' he' => (hother e' he').symm, hf, if_pos rfl]
      · rw [List.foldl_cons, hin e he, hf, if_neg (hother e he)]
    · rw [List.foldl_cons, hout b fun e he => hb e (List.mem_cons_of_mem _ he), hf, if_neg (hb x (by simp))]

variable [LawfulEqOrd α] {m : BTreeMap α β} {k k' : α} {v w : β}

theorem BTreeMap.getElem?_insert [DecidableEq α] :
    (ExtTreeMap.insert m k v)[k']? = if k = k' then some v else m[k']? := by
  rw [ExtTreeMap.getElem?_insert]
  by_cases h : k = k' <;> simp [h]

/-- An entry read after an insertion is the new one or an old one. -/
theorem BTreeMap.of_getElem?_insert (h : (ExtTreeMap.insert m k v)[k']? = some w) :
    k = k' ∧ v = w ∨ k ≠ k' ∧ m[k']? = some w := by
  classical
  rw [BTreeMap.getElem?_insert] at h
  split at h
  · exact Or.inl ⟨‹_›, Option.some.inj h⟩
  · exact Or.inr ⟨‹_›, h⟩

theorem BTreeMap.of_getElem?_erase (h : (ExtTreeMap.erase m k)[k']? = some w) : k ≠ k' ∧ m[k']? = some w := by
  rw [ExtTreeMap.getElem?_erase] at h
  split at h
  · cases h
  · rename_i hk
    exact ⟨by simpa using hk, h⟩

theorem nodup_toList (m : BTreeMap α β) : m.toList.Nodup := by
  have h := m.distinct_keys_toList
  refine h.imp ?_
  rintro a b hab rfl
  exact hab (by simp)

/-- The entries of a map are the one under `k` and the others. -/
theorem toList_perm_erase (h : m[k]? = some v) :
    m.toList.Perm ((k, v) :: (m.erase k).toList) := by
  refine (List.perm_ext_iff_of_nodup (nodup_toList m) ?_).2 ?_
  · refine List.nodup_cons.2 ⟨?_, nodup_toList _⟩
    rw [ExtTreeMap.mem_toList_iff_getElem?_eq_some]
    simp
  · rintro ⟨k', v'⟩
    simp only [List.mem_cons, ExtTreeMap.mem_toList_iff_getElem?_eq_some, ExtTreeMap.getElem?_erase,
      Prod.mk.injEq, Std.compare_eq_iff_eq]
    by_cases hk : k = k'
    · subst hk
      simp [h, eq_comm]
    · simp [hk, Ne.symm hk]

theorem nodup_keys_toList (m : BTreeMap α β) : (m.toList.map Prod.fst).Nodup := by
  rw [List.Nodup, List.pairwise_map]
  exact m.distinct_keys_toList.imp fun h => by simpa using h

/-- A fold over the entries of a map that updates the key of each. -/
theorem getElem?_foldl_toList {γ : Type} [DecidableEq α] {f : BTreeMap α γ → α × β → BTreeMap α γ}
    (upd : α × β → Option γ → Option γ)
    (hf : ∀ (v : BTreeMap α γ) (e : α × β) (b : α), (f v e)[b]? = if e.1 = b then upd e v[b]? else v[b]?)
    (m : BTreeMap α β) (v : BTreeMap α γ) (b : α) :
    (m.toList.foldl f v)[b]? = (m[b]?.map fun x => upd (b, x) v[b]?).getD v[b]? := by
  obtain ⟨hin, hout⟩ := getElem?_foldl_update upd hf (nodup_keys_toList m) v
  cases h : m[b]? with
  | none =>
    refine hout b ?_
    rintro ⟨b', x⟩ he rfl
    rw [ExtTreeMap.mem_toList_iff_getElem?_eq_some, h] at he
    cases he
  | some x => exact hin (b, x) (ExtTreeMap.mem_toList_iff_getElem?_eq_some.2 h)

end Entries

/-! ## Set-valued maps -/

namespace SetMap

variable {κ ν : Type} [Ord κ] [TransOrd κ] [Ord ν]

/-- The set stored under `k`, empty when there is none. -/
def get (m : BTreeMap κ (BTreeSet ν)) (k : κ) : BTreeSet ν := m[k]?.getD ∅

/-- No key is kept for an empty set. -/
def NoEmpty (m : BTreeMap κ (BTreeSet ν)) : Prop := ∀ k : κ, m[k]? ≠ some ∅

variable {m : BTreeMap κ (BTreeSet ν)} {k k' : κ} {v v' : ν}

@[simp] theorem get_empty : get (∅ : BTreeMap κ (BTreeSet ν)) k = ∅ := by
  simp [get]

theorem get_of_getElem? {s : BTreeSet ν} (h : m[k]? = some s) : get m k = s := by
  simp [get, h]

theorem NoEmpty.empty : NoEmpty (∅ : BTreeMap κ (BTreeSet ν)) := by
  intro k; simp

/-- Without empty entries a key is present exactly when its set has a member. -/
theorem NoEmpty.mem_iff [TransOrd ν] (h : NoEmpty m) : k ∈ m ↔ ∃ v, v ∈ get m k := by
  rw [ExtTreeMap.mem_iff_isSome_getElem?]
  constructor
  · intro hk
    obtain ⟨s, hs⟩ := Option.isSome_iff_exists.1 hk
    rw [get_of_getElem? hs]
    exact BTreeSet.exists_mem_of_ne_empty fun h0 => h k (h0 ▸ hs)
  · rintro ⟨v, hv⟩
    unfold get at hv
    cases hm : m[k]? with
    | none => simp [hm] at hv
    | some s => rfl

variable [LawfulEqOrd κ]

@[simp] theorem get_erase_key [DecidableEq κ] :
    get (ExtTreeMap.erase m k) k' = if k = k' then ∅ else get m k' := by
  unfold get
  rw [ExtTreeMap.getElem?_erase]
  by_cases h : k = k' <;> simp [h]

theorem NoEmpty.erase_key (h : NoEmpty m) : NoEmpty (ExtTreeMap.erase m k) :=
  fun k' hk => h k' (BTreeMap.of_getElem?_erase hk).2

variable [TransOrd ν]

/-- Add `v` under `k`, creating the entry when it is absent. -/
def insert (m : BTreeMap κ (BTreeSet ν)) (k : κ) (v : ν) : BTreeMap κ (BTreeSet ν) :=
  ExtTreeMap.insert m k ((get m k).insert v)

/-- Remove `v` under `k`, dropping the entry once it is empty. -/
def erase (m : BTreeMap κ (BTreeSet ν)) (k : κ) (v : ν) : BTreeMap κ (BTreeSet ν) :=
  match m[k]? with
  | none => m
  | some set => if (set.erase v).isEmpty then ExtTreeMap.erase m k else ExtTreeMap.insert m k (set.erase v)

theorem get_insert [DecidableEq κ] :
    get (insert m k v) k' = if k = k' then (get m k).insert v else get m k' := by
  unfold get insert
  rw [ExtTreeMap.getElem?_insert]
  by_cases h : k = k' <;> simp [h, get]

theorem get_erase [DecidableEq κ] :
    get (erase m k v) k' = if k = k' then (get m k).erase v else get m k' := by
  unfold erase
  cases hm : m[k]? with
  | none =>
    by_cases h : k = k'
    · subst h; simp [get, hm]
    · simp [h]
  | some set =>
    by_cases he : (set.erase v).isEmpty
    · have h0 : set.erase v = ∅ := ExtTreeSet.isEmpty_iff.1 he
      by_cases h : k = k'
      · subst h
        simp [get, hm, h0]
      · simp [get, he, h, ExtTreeMap.getElem?_erase]
    · by_cases h : k = k'
      · subst h
        simp [get, hm, he]
      · simp [get, he, h, ExtTreeMap.getElem?_insert]

theorem NoEmpty.erase (h : NoEmpty m) : NoEmpty (erase m k v) := by
  intro k' hk
  unfold SetMap.erase at hk
  split at hk
  · exact h k' hk
  · split at hk
    · exact h k' (BTreeMap.of_getElem?_erase hk).2
    · rename_i hne
      rcases BTreeMap.of_getElem?_insert hk with ⟨-, hempty⟩ | ⟨-, hk⟩
      · exact hne (ExtTreeSet.isEmpty_iff.2 hempty)
      · exact h k' hk

theorem NoEmpty.foldl_erase {l : List κ} (h : NoEmpty m) :
    NoEmpty (l.foldl (fun m k => SetMap.erase m k v) m) := by
  induction l generalizing m with
  | nil => exact h
  | cons k l ih => exact ih h.erase

variable [LawfulEqOrd ν]

@[simp] theorem mem_get_insert : v' ∈ get (insert m k v) k' ↔ k = k' ∧ v = v' ∨ v' ∈ get m k' := by
  classical
  rw [get_insert]
  by_cases h : k = k'
  · subst h; simp
  · simp [h]

@[simp] theorem mem_get_erase : v' ∈ get (erase m k v) k' ↔ v' ∈ get m k' ∧ ¬(k = k' ∧ v = v') := by
  classical
  rw [get_erase]
  by_cases h : k = k'
  · subst h; simp [and_comm]
  · simp [h]

theorem NoEmpty.insert (h : NoEmpty m) : NoEmpty (insert m k v) := by
  intro k' hk
  rcases BTreeMap.of_getElem?_insert hk with ⟨rfl, hempty⟩ | ⟨-, hk⟩
  · exact BTreeSet.ne_empty_of_mem (a := v) (by simp) hempty
  · exact h k' hk

/-- Adding one value under each of several keys. -/
theorem mem_get_foldl_insert {l : List κ} :
    v' ∈ get (l.foldl (fun m k => insert m k v) m) k' ↔ v = v' ∧ k' ∈ l ∨ v' ∈ get m k' := by
  induction l generalizing m with
  | nil => simp
  | cons k l ih =>
    rw [List.foldl_cons, ih, mem_get_insert, List.mem_cons]
    constructor
    · rintro (⟨h, h'⟩ | ⟨rfl, h⟩ | h)
      · exact Or.inl ⟨h, Or.inr h'⟩
      · exact Or.inl ⟨h, Or.inl rfl⟩
      · exact Or.inr h
    · rintro (⟨h, rfl | h'⟩ | h)
      · exact Or.inr (Or.inl ⟨rfl, h⟩)
      · exact Or.inl ⟨h, h'⟩
      · exact Or.inr (Or.inr h)

theorem NoEmpty.foldl_insert {l : List κ} (h : NoEmpty m) :
    NoEmpty (l.foldl (fun m k => SetMap.insert m k v) m) := by
  induction l generalizing m with
  | nil => exact h
  | cons k l ih => exact ih h.insert

/-- Removing one value under each of several keys. -/
theorem mem_get_foldl_erase {l : List κ} :
    v' ∈ get (l.foldl (fun m k => erase m k v) m) k' ↔ v' ∈ get m k' ∧ ¬(v = v' ∧ k' ∈ l) := by
  induction l generalizing m with
  | nil => simp
  | cons k l ih =>
    rw [List.foldl_cons, ih, mem_get_erase, List.mem_cons]
    constructor
    · rintro ⟨⟨h, hne⟩, hl⟩
      refine ⟨h, ?_⟩
      rintro ⟨hid, rfl | hd⟩
      · exact hne ⟨rfl, hid⟩
      · exact hl ⟨hid, hd⟩
    · rintro ⟨h, hno⟩
      exact ⟨⟨h, fun ⟨he, hid⟩ => hno ⟨hid, Or.inl he.symm⟩⟩, fun ⟨hid, hd⟩ => hno ⟨hid, Or.inr hd⟩⟩

end SetMap

end Irokle
