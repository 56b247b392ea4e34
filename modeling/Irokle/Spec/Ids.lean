import Irokle.Lib.BTree

/-!
# Identifiers and actor clocks

The 32-byte identifiers (`src/ids.rs`) are ordered as byte strings, which is the order of the
numbers they encode big-endian. An actor clock (`src/clock.rs`) is the sorted map its persistent
trie represents, from actors to the highest position observed.

* `ActorClock.le_get_observe`, `ActorClock.le_get_merge` — what a position is bounded by after
  an update;
* `ActorClock.ext_of_le_get` — a clock without zero entries is determined by the positions below it.
-/

namespace Irokle

open Std ExtTreeMap

/-- The types the macro `id_type!` declares. -/
inductive IdKind
  | op | topic | actor | peer | eviction
deriving DecidableEq, Repr

/-- A 32-byte identifier, read as a big-endian number. -/
structure IdType (k : IdKind) where
  bytes : Fin (2 ^ 256)
deriving DecidableEq

namespace IdType

variable {k : IdKind}

theorem bytes_injective : Function.Injective (IdType.bytes : IdType k → Fin (2 ^ 256)) := by
  rintro ⟨a⟩ ⟨b⟩ h
  exact congrArg IdType.mk h

instance : LinearOrder (IdType k) := LinearOrder.lift' IdType.bytes bytes_injective

/-! The laws of the order on the keys in use, each under its own name. -/

instance neZero_bytes : NeZero (2 ^ 256) := inferInstance

instance transOrd_bytes : TransOrd (Fin (2 ^ 256)) := inferInstance

instance lawfulBEq_bytes : LawfulBEq (Fin (2 ^ 256)) := inferInstance

instance transOrd_id : TransOrd (IdType k) := inferInstance

instance lawfulEqOrd_id : LawfulEqOrd (IdType k) := inferInstance

instance lawfulBEq_id : LawfulBEq (IdType k) := inferInstance

instance transOrd_pair {j : IdKind} : TransOrd (IdType j × IdType k) := inferInstance

instance lawfulEqOrd_pair {j : IdKind} : LawfulEqOrd (IdType j × IdType k) := inferInstance

instance transOrd_slot {j : IdKind} : TransOrd (IdType j × IdType k × ℕ) := inferInstance

instance lawfulEqOrd_slot {j : IdKind} : LawfulEqOrd (IdType j × IdType k × ℕ) := inferInstance

instance lawfulBEq_tip : LawfulBEq (ℕ × IdType k) := inferInstance

instance lawfulBEq_set : LawfulBEq (BTreeSet (IdType k)) := inferInstance

instance lawfulBEq_counts : LawfulBEq (BTreeMap (IdType k) ℕ) := inferInstance

/-- The identifier whose bytes encode `n`. -/
def ofNat (n : ℕ) : IdType k := ⟨Fin.ofNat _ n⟩

instance : Inhabited (IdType k) := ⟨ofNat 0⟩

/-- The 64 lowercase hex digits of an identifier. -/
def display (i : IdType k) : String :=
  let digits := Nat.toDigits 16 i.bytes.val
  String.ofList (List.replicate (64 - digits.length) '0' ++ digits)

end IdType

/-- The hash of a signed op. -/
abbrev OpId := IdType .op
/-- A topic. -/
abbrev TopicId := IdType .topic
/-- One writer of a peer. -/
abbrev ActorId := IdType .actor
/-- The public key of a peer. -/
abbrev PeerId := IdType .peer
/-- The key of a journalled eviction. -/
abbrev EvictionKey := IdType .eviction

/-- A 32-byte digest that is compared but never ordered. -/
abbrev Digest := Fin (2 ^ 256)

/-- One past the largest `u64`. -/
def u64Size : ℕ := 2 ^ 64

/-- `saturating_add` of `u64`. -/
def saturatingAdd (a b : ℕ) : ℕ := min (a + b) (u64Size - 1)

/-- `u64::checked_add(1)`. -/
def checkedSucc (n : ℕ) : Option ℕ := if n + 1 < u64Size then some (n + 1) else none

theorem checkedSucc_eq_some {n m : ℕ} : checkedSucc n = some m ↔ n + 1 < u64Size ∧ m = n + 1 := by
  unfold checkedSucc
  split <;> simp_all [eq_comm]

/-! ## Actor clocks -/

/-- Actor positions, in actor order. -/
abbrev ActorClock := BTreeMap ActorId ℕ

namespace ActorClock

/-- `ActorClock::get`: the position of an actor, zero when it has none. -/
def get (v : ActorClock) (a : ActorId) : ℕ := v[a]?.getD 0

/-- `ActorClock::observe`: raise an actor to at least `seq`. -/
def observe (v : ActorClock) (a : ActorId) (seq : ℕ) : ActorClock :=
  v.insert a (max (get v a) seq)

/-- `ActorClock::merge`: every entry of either clock at the higher position. -/
def merge (v w : ActorClock) : ActorClock :=
  w.toList.foldl (fun v e => observe v e.1 e.2) v

/-- `ActorClock::dominates`: no position of `w` lies above `v`. -/
def dominates (v w : ActorClock) : Bool := w.toList.all fun e => decide (e.2 ≤ get v e.1)

/-- `ActorClock::intersect`: the actors of both clocks at the lower position. -/
def intersect (v w : ActorClock) : ActorClock :=
  let (small, large) := if v.size ≤ w.size then (v, w) else (w, v)
  small.toList.foldl (fun clock e => match large[e.1]? with
    | some held => clock.insert e.1 (min e.2 held)
    | none => clock) ∅

/-- Clocks built from positions that start at one keep no zero entry. -/
def Positive (v : ActorClock) : Prop := ∀ a : ActorId, v[a]? ≠ some 0

variable {v w : ActorClock} {a b : ActorId} {n m : ℕ}

@[simp] theorem get_empty : get ∅ a = 0 := by simp [get]

theorem get_of_getElem? (h : v[a]? = some n) : get v a = n := by simp [get, h]

theorem getElem?_observe :
    (observe v a n)[b]? = if a = b then some (max (get v a) n) else v[b]? := by
  simp [observe, getElem?_insert]

theorem get_observe : get (observe v a n) b = if a = b then max (get v b) n else get v b := by
  unfold get
  rw [getElem?_observe]
  by_cases h : a = b
  · subst h; simp [get]
  · simp [h]

theorem le_get_observe :
    m ≤ get (observe v a n) b ↔ m ≤ get v b ∨ a = b ∧ m ≤ n := by
  rw [get_observe]
  by_cases h : a = b
  · simp [h]
  · simp [h]

theorem Positive.empty : Positive ∅ := by intro a; simp

theorem Positive.observe (h : Positive v) (hn : 1 ≤ n) : Positive (observe v a n) := by
  intro b hb
  rw [getElem?_observe] at hb
  split at hb
  · simp only [Option.some.injEq] at hb; omega
  · exact h b hb

private theorem le_get_foldl (l : List (ActorId × ℕ)) (v : ActorClock) :
    m ≤ get (l.foldl (fun v e => observe v e.1 e.2) v) b ↔
      m ≤ get v b ∨ ∃ e ∈ l, e.1 = b ∧ m ≤ e.2 := by
  induction l generalizing v with
  | nil => simp
  | cons e l ih => rw [List.foldl_cons, ih, le_get_observe]; simp [or_assoc]

theorem le_get_merge (hm : 1 ≤ m) : m ≤ get (merge v w) b ↔ m ≤ get v b ∨ m ≤ get w b := by
  unfold merge
  rw [le_get_foldl]
  refine or_congr_right ⟨?_, fun h => ?_⟩
  · rintro ⟨⟨x, n⟩, hx, rfl, hn⟩
    rw [mem_toList_iff_getElem?_eq_some] at hx
    rwa [get_of_getElem? hx]
  · cases hw : w[b]? with
    | none => simp [get, hw] at h; omega
    | some n =>
      refine ⟨(b, n), mem_toList_iff_getElem?_eq_some.2 hw, rfl, ?_⟩
      rwa [get_of_getElem? hw] at h

theorem Positive.merge (hv : Positive v) (hw : Positive w) : Positive (merge v w) := by
  have key : ∀ (l : List (ActorId × ℕ)) (v : ActorClock), Positive v → (∀ e ∈ l, 1 ≤ e.2) →
      Positive (l.foldl (fun v e => ActorClock.observe v e.1 e.2) v) := by
    intro l
    induction l with
    | nil => intro v hv _; exact hv
    | cons e l ih =>
      intro v hv hl
      exact ih _ (hv.observe (hl e (by simp))) fun e' he' => hl e' (by simp [he'])
  refine key _ v hv fun e he => ?_
  rw [mem_toList_iff_getElem?_eq_some] at he
  rcases Nat.eq_zero_or_pos e.2 with h0 | h0
  · exact absurd (h0 ▸ he) (hw e.1)
  · exact h0

theorem Positive.getElem?_eq (hv : Positive v) : v[a]? = if get v a = 0 then none else some (get v a) := by
  cases h : v[a]? with
  | none => simp [get, h]
  | some n =>
    have hn : n ≠ 0 := fun h0 => hv a (h0 ▸ h)
    simp [get, h, hn]

/-- Two clocks without zero entries that bound the same positions are equal. -/
theorem ext_of_le_get (hv : Positive v) (hw : Positive w)
    (h : ∀ a m, 1 ≤ m → (m ≤ get v a ↔ m ≤ get w a)) : v = w := by
  have hget : ∀ a, get v a = get w a := by
    intro a
    rcases Nat.lt_trichotomy (get v a) (get w a) with hlt | heq | hgt
    · exact absurd ((h a (get w a) (by omega)).2 le_rfl) (by omega)
    · exact heq
    · exact absurd ((h a (get v a) (by omega)).1 le_rfl) (by omega)
  refine ext_getElem? fun (a : ActorId) => ?_
  rw [hv.getElem?_eq, hw.getElem?_eq, hget]

theorem dominates_iff : dominates v w = true ↔ ∀ a, get w a ≤ get v a := by
  unfold dominates
  rw [List.all_eq_true]
  constructor
  · intro h a
    cases hw : w[a]? with
    | none => simp [get, hw]
    | some n =>
      have := h (a, n) (mem_toList_iff_getElem?_eq_some.2 hw)
      rw [get_of_getElem? hw]
      exact of_decide_eq_true this
  · rintro h ⟨a, n⟩ he
    rw [mem_toList_iff_getElem?_eq_some] at he
    have := h a
    rw [get_of_getElem? he] at this
    exact decide_eq_true this

private theorem get_foldl_intersect (small large : ActorClock) (l : List (ActorId × ℕ))
    (hl : ∀ e ∈ l, get small e.1 = e.2) (clock : ActorClock)
    (hclock : ∀ a, get clock a ≤ get small a ∧ get clock a ≤ get large a) (a : ActorId) :
    get (l.foldl (fun clock e => match large[e.1]? with
      | some held => clock.insert e.1 (min e.2 held)
      | none => clock) clock) a ≤ min (get small a) (get large a) := by
  induction l generalizing clock with
  | nil => exact le_min (hclock a).1 (hclock a).2
  | cons e l ih =>
    refine ih (fun e' he' => hl e' (by simp [he'])) _ fun b => ?_
    dsimp only
    split
    · rename_i held hheld
      by_cases hb : e.1 = b
      · subst hb
        have hsmall := hl e (by simp)
        have hlarge := get_of_getElem? hheld
        have hget : get (ExtTreeMap.insert clock e.1 (min e.2 held)) e.1 = min e.2 held := by simp [get]
        omega
      · have hget : get (ExtTreeMap.insert clock e.1 (min e.2 held)) b = get clock b := by
          simp [get, getElem?_insert, hb]
        rw [hget]
        exact hclock b
    · exact hclock b

/-- An intersection stays below both clocks. -/
theorem get_intersect_le (v w : ActorClock) (a : ActorId) : get (intersect v w) a ≤ min (get v a) (get w a) := by
  have hentries : ∀ (u : ActorClock) (e : ActorId × ℕ), e ∈ u.toList → get u e.1 = e.2 := by
    intro u e he
    exact get_of_getElem? (mem_toList_iff_getElem?_eq_some.1 he)
  unfold intersect
  by_cases hsize : v.size ≤ w.size
  · rw [if_pos hsize]
    exact get_foldl_intersect v w _ (hentries v) ∅ (by simp) a
  · rw [if_neg hsize, min_comm]
    exact get_foldl_intersect w v _ (hentries w) ∅ (by simp) a

end ActorClock

end Irokle
