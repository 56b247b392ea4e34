import Irokle.Lib.BTree

/-!
# Topological order with priorities

Kahn's algorithm over a finite graph given by the dependencies of each node: nodes all of whose
dependencies are listed are ready, and the ready node of least priority is listed next.

* `Kahn.order_before` — a listed node follows all of its dependencies inside the graph;
* `Kahn.order_nodup`, `Kahn.mem_of_mem_order` — each node is listed at most once;
* `Kahn.mem_order_of_rank` — when dependencies decrease some rank, every node is listed.
-/

namespace Irokle.Kahn

open Std List ExtTreeSet

/-- What holds of each element and those before it still holds with one more at the end. -/
theorem forall_split_snoc {α : Type} {b : α} {P : List α → α → Prop} {done : List α}
    (h : ∀ l x r, done = l ++ x :: r → P l x) (hb : P done b) :
    ∀ l x r, done ++ [b] = l ++ x :: r → P l x := by
  intro l x r hlr
  rcases eq_nil_or_concat r with rfl | ⟨r', y, rfl⟩
  · obtain ⟨rfl, hx⟩ := append_inj' hlr rfl
    obtain rfl : b = x := by simpa using hx
    exact hb
  · have hlr' : done ++ [b] = (l ++ x :: r') ++ [y] := by simpa using hlr
    exact h l x r' (append_inj' hlr' rfl).1

variable {α κ : Type} [LinearOrder α] [LinearOrder κ]

/-- The dependencies of a node that are nodes themselves. -/
def inside (deps : BTreeMap α (BTreeSet α)) (a : α) : BTreeSet α :=
  (deps[a]?.getD ∅).filter fun d => deps.contains d

/-- For each node, how many of its dependencies are not listed yet. -/
def counts (deps : BTreeMap α (BTreeSet α)) : BTreeMap α ℕ :=
  deps.map fun a _ => (inside deps a).size

/-- The nodes that depend on each node. -/
def children (deps : BTreeMap α (BTreeSet α)) : BTreeMap α (BTreeSet α) :=
  deps.keys.foldl (fun m a => (inside deps a).toList.foldl (fun m d => SetMap.insert m d a) m) ∅

/-- One dependency of `child` was listed: it is ready once none is left. -/
def release (prio : α → κ) (st : BTreeSet (κ × α) × BTreeMap α ℕ) (child : α) :
    BTreeSet (κ × α) × BTreeMap α ℕ :=
  match st.2[child]? with
  | none => st
  | some count =>
    (if count - 1 = 0 then st.1.insert (prio child, child) else st.1, st.2.insert child (count - 1))

/-- List the ready node of least priority and release its children, at most `fuel` times. -/
def loop (prio : α → κ) (next : BTreeMap α (BTreeSet α)) :
    ℕ → BTreeSet (κ × α) → BTreeMap α ℕ → List α
  | 0, _, _ => []
  | fuel + 1, ready, indeg =>
    match ready.toList.head? with
    | none => []
    | some e =>
      let st := (SetMap.get next e.2).toList.foldl (release prio) (ready.erase e, indeg)
      e.2 :: loop prio next fuel st.1 st.2

/-- The nodes without dependencies inside the graph. -/
def initial (prio : α → κ) (deps : BTreeMap α (BTreeSet α)) : BTreeSet (κ × α) :=
  ExtTreeSet.ofList ((deps.keys.filter fun a => (inside deps a).isEmpty).map fun a => (prio a, a)) compare

/-- The nodes in dependency order, as far as the order reaches. -/
def order (prio : α → κ) (deps : BTreeMap α (BTreeSet α)) : List α :=
  loop prio (children deps) deps.size (initial prio deps) (counts deps)

/-! ## The state of the loop -/

variable {prio : α → κ} {deps : BTreeMap α (BTreeSet α)} {a b : α}

theorem mem_inside : b ∈ inside deps a ↔ b ∈ deps[a]?.getD ∅ ∧ b ∈ deps := by
  simp [inside]

/-- How many dependencies of `a` are outside `done`. -/
def waiting (deps : BTreeMap α (BTreeSet α)) (done : List α) (a : α) : ℕ :=
  ((inside deps a).toList.filter fun d => decide (d ∉ done)).length

theorem waiting_eq_zero {done : List α} : waiting deps done a = 0 ↔ ∀ d ∈ inside deps a, d ∈ done := by
  simp [waiting, length_eq_zero_iff, filter_eq_nil_iff]

/-- One more listed element leaves one fewer of those that wait for it. -/
theorem length_filter_snoc {l done : List α} (hl : l.Nodup) (hb : b ∉ done) :
    (l.filter fun d => decide (d ∉ done ++ [b])).length =
      (l.filter fun d => decide (d ∉ done)).length - if b ∈ l then 1 else 0 := by
  have hfil : (l.filter fun d => decide (d ∉ done ++ [b])) = (l.filter fun d => decide (d ∉ done)).erase b := by
    rw [(hl.filter _).erase_eq_filter, filter_filter]
    refine filter_congr fun d _ => ?_
    by_cases h : d = b <;> simp [h]
  rw [hfil, length_erase]
  simp only [List.mem_filter, decide_eq_true_eq, hb, not_false_eq_true, and_true]
  split <;> rfl

theorem waiting_snoc (deps : BTreeMap α (BTreeSet α)) (a : α) {done : List α} (hb : b ∉ done) :
    waiting deps (done ++ [b]) a = waiting deps done a - if b ∈ inside deps a then 1 else 0 := by
  unfold waiting
  rw [length_filter_snoc (BTreeSet.nodup_toList _) hb]
  simp only [mem_toList]

theorem mem_children : a ∈ SetMap.get (children deps) b ↔ a ∈ deps ∧ b ∈ inside deps a := by
  have outer : ∀ (l : List α) (m : BTreeMap α (BTreeSet α)),
      a ∈ SetMap.get (l.foldl (fun m x => (inside deps x).toList.foldl
        (fun m d => SetMap.insert m d x) m) m) b ↔
        (a ∈ l ∧ b ∈ inside deps a) ∨ a ∈ SetMap.get m b := by
    intro l
    induction l with
    | nil => intro m; simp
    | cons x l ih =>
      intro m
      rw [foldl_cons, ih, SetMap.mem_get_foldl_insert]
      simp only [mem_cons, mem_toList]
      constructor
      · rintro (h | ⟨rfl, h⟩ | h)
        · exact Or.inl ⟨Or.inr h.1, h.2⟩
        · exact Or.inl ⟨Or.inl rfl, h⟩
        · exact Or.inr h
      · rintro (⟨rfl | h, h'⟩ | h)
        · exact Or.inr (Or.inl ⟨rfl, h'⟩)
        · exact Or.inl ⟨h, h'⟩
        · exact Or.inr (Or.inr h)
  unfold children
  rw [outer]
  simp [ExtTreeMap.mem_keys]

/-- Releasing a list of distinct children decrements each of their counts once. -/
theorem release_foldl (prio : α → κ) (l : List α) (hl : l.Nodup) (st : BTreeSet (κ × α) × BTreeMap α ℕ) :
    (∀ x, (l.foldl (release prio) st).2[x]? = if x ∈ l then st.2[x]?.map (· - 1) else st.2[x]?) ∧
    ∀ e, e ∈ (l.foldl (release prio) st).1 ↔
      e ∈ st.1 ∨ e.2 ∈ l ∧ e.1 = prio e.2 ∧ ∃ n, st.2[e.2]? = some n ∧ n - 1 = 0 := by
  induction l generalizing st with
  | nil => simp
  | cons y l ih =>
    obtain ⟨hy, hl⟩ := nodup_cons.1 hl
    obtain ⟨ih2, ih1⟩ := ih hl (release prio st y)
    have h2 : ∀ x, (release prio st y).2[x]? = if y = x then st.2[x]?.map (· - 1) else st.2[x]? := by
      intro x
      unfold release
      cases hc : st.2[y]? with
      | none =>
        by_cases h : y = x
        · subst h; simp [hc]
        · simp [h]
      | some n =>
        by_cases h : y = x
        · subst h; simp [hc]
        · simp [h, ExtTreeMap.getElem?_insert]
    have h1 : ∀ e, e ∈ (release prio st y).1 ↔
        e ∈ st.1 ∨ e.2 = y ∧ e.1 = prio y ∧ ∃ n, st.2[y]? = some n ∧ n - 1 = 0 := by
      rintro ⟨g, x⟩
      unfold release
      cases hc : st.2[y]? with
      | none => simp
      | some n =>
        by_cases hn : n - 1 = 0
        · simp only [hn, if_true, mem_insert, Std.compare_eq_iff_eq, Prod.mk.injEq]
          constructor
          · rintro (⟨rfl, rfl⟩ | h)
            · exact Or.inr ⟨rfl, rfl, n, rfl, hn⟩
            · exact Or.inl h
          · rintro (h | ⟨rfl, rfl, -⟩)
            · exact Or.inr h
            · exact Or.inl ⟨rfl, rfl⟩
        · simp [hn]
    refine ⟨fun x => ?_, fun e => ?_⟩
    · rw [foldl_cons, ih2, h2]
      by_cases hxy : y = x
      · subst hxy; simp [hy]
      · simp [hxy, Ne.symm hxy]
    · rw [foldl_cons, ih1, h1]
      constructor
      · rintro ((h | ⟨rfl, h, hn⟩) | ⟨hmem, h, n, hn, hn0⟩)
        · exact Or.inl h
        · exact Or.inr ⟨by simp, h, hn⟩
        · have hne : y ≠ e.2 := fun h => hy (h ▸ hmem)
          rw [h2, if_neg hne] at hn
          exact Or.inr ⟨by simp [hmem], h, n, hn, hn0⟩
      · rintro (h | ⟨hmem, h, n, hn, hn0⟩)
        · exact Or.inl (Or.inl h)
        · rcases mem_cons.1 hmem with rfl | hmem
          · exact Or.inl (Or.inr ⟨rfl, h, n, hn, hn0⟩)
          · have hne : y ≠ e.2 := fun h => hy (h ▸ hmem)
            exact Or.inr ⟨hmem, h, n, by rw [h2, if_neg hne]; exact hn, hn0⟩

/-- What holds of the listed nodes, the ready set and the counts between two rounds. -/
structure LoopInv (prio : α → κ) (deps : BTreeMap α (BTreeSet α)) (done : List α)
    (ready : BTreeSet (κ × α)) (indeg : BTreeMap α ℕ) : Prop where
  nodup : done.Nodup
  sub : ∀ x ∈ done, x ∈ deps
  before : ∀ l x r, done = l ++ x :: r → ∀ d ∈ inside deps x, d ∈ l
  mem_ready : ∀ e, e ∈ ready ↔ e.1 = prio e.2 ∧ e.2 ∈ deps ∧ e.2 ∉ done ∧ ∀ d ∈ inside deps e.2, d ∈ done
  count : ∀ x ∈ deps, x ∉ done → indeg[x]? = some (waiting deps done x)

theorem LoopInv.init : LoopInv prio deps [] (initial prio deps) (counts deps) where
  nodup := nodup_nil
  sub := by simp
  before := by simp
  mem_ready := by
    rintro ⟨g, x⟩
    simp only [initial, mem_ofList, List.contains_iff_mem, mem_map, List.mem_filter,
      ExtTreeMap.mem_keys, Prod.mk.injEq, not_mem_nil, not_false_eq_true, true_and, ExtTreeSet.isEmpty_iff]
    constructor
    · rintro ⟨y, ⟨hy, h0⟩, rfl, rfl⟩
      exact ⟨rfl, hy, by simp [h0]⟩
    · rintro ⟨rfl, hx, h⟩
      exact ⟨x, ⟨hx, eq_empty_iff_forall_not_mem.2 h⟩, rfl, rfl⟩
  count := by
    intro x hx _
    have hw : waiting deps [] x = (inside deps x).size := by
      simp [waiting]
    rw [hw, counts, ExtTreeMap.getElem?_map']
    obtain ⟨v, hv⟩ := Option.isSome_iff_exists.1 (ExtTreeMap.mem_iff_isSome_getElem?.1 hx)
    simp [hv]

/-- Listing the least ready node keeps the invariant. -/
theorem LoopInv.step {done : List α} {ready : BTreeSet (κ × α)} {indeg : BTreeMap α ℕ} {e : κ × α}
    (h : LoopInv prio deps done ready indeg) (he : e ∈ ready) :
    let st := (SetMap.get (children deps) e.2).toList.foldl (release prio) (ready.erase e, indeg)
    LoopInv prio deps (done ++ [e.2]) st.1 st.2 := by
  intro st
  obtain ⟨hg, hd, hnd, hdeps⟩ := (h.mem_ready e).1 he
  have hnodup : (SetMap.get (children deps) e.2).toList.Nodup := BTreeSet.nodup_toList _
  obtain ⟨hst2, hst1⟩ := release_foldl prio _ hnodup (ready.erase e, indeg)
  refine ⟨?_, ?_, ?_, ?_, ?_⟩
  · exact h.nodup.append (nodup_singleton _) (by simpa using hnd)
  · simpa [or_imp, forall_and, hd] using h.sub
  · exact forall_split_snoc h.before hdeps
  · rintro ⟨g, x⟩
    rw [hst1]
    simp only [mem_erase, ne_eq, Std.compare_eq_iff_eq, mem_toList, mem_children,
      h.mem_ready]
    have hin : ∀ n, (x ∈ deps ∧ x ∉ done → indeg[x]? = some n) →
        x ∈ deps → x ∉ done → waiting deps done x = n := by
      intro n hn hx hxd
      have := h.count x hx hxd
      rw [hn ⟨hx, hxd⟩] at this
      exact (Option.some.inj this).symm
    constructor
    · rintro (⟨hne, rfl, hx, hxd, hall⟩ | ⟨⟨hx, hex⟩, rfl, n, hn, hn0⟩)
      · refine ⟨rfl, hx, ?_, fun d hdx => mem_append_left _ (hall d hdx)⟩
        rw [mem_append, not_or]
        refine ⟨hxd, fun hmem => hne ?_⟩
        rw [mem_singleton] at hmem
        ext <;> simp [hg, hmem]
      · have hxd : x ∉ done := by
          intro hxd
          obtain ⟨l, r, hlr⟩ := append_of_mem hxd
          exact hnd (hlr ▸ mem_append_left _ (h.before l x r hlr _ hex))
        have hxe : x ≠ e.2 := fun hxe => hnd (hdeps _ (hxe ▸ hex))
        have hw := hin n (fun _ => hn) hx hxd
        have hw' := waiting_snoc deps x hnd
        rw [if_pos hex, hw, hn0] at hw'
        exact ⟨rfl, hx, by simp [hxd, hxe], waiting_eq_zero.1 hw'⟩
    · rintro ⟨rfl, hx, hxd, hall⟩
      rw [mem_append, mem_singleton, not_or] at hxd
      by_cases hex : e.2 ∈ inside deps x
      · have hw := h.count x hx hxd.1
        have hw' := waiting_snoc deps x hnd
        rw [if_pos hex, waiting_eq_zero.2 hall] at hw'
        exact Or.inr ⟨⟨hx, hex⟩, rfl, _, hw, hw'.symm⟩
      · refine Or.inl ⟨?_, rfl, hx, hxd.1, fun d hdx => ?_⟩
        · rintro rfl
          exact hxd.2 rfl
        · rcases mem_append.1 (hall d hdx) with hd' | hd'
          · exact hd'
          · exact absurd (mem_singleton.1 hd' ▸ hdx) hex
  · intro x hx hxd
    rw [mem_append, mem_singleton, not_or] at hxd
    rw [hst2, waiting_snoc _ _ hnd, h.count x hx hxd.1]
    by_cases hex : e.2 ∈ inside deps x
    · simp [mem_children, hx, hex]
    · simp [mem_children, hex]

theorem LoopInv.loop {done : List α} {ready : BTreeSet (κ × α)} {indeg : BTreeMap α ℕ}
    (h : LoopInv prio deps done ready indeg) (fuel : ℕ) (hfuel : deps.size ≤ fuel + done.length) :
    ∃ indeg', LoopInv prio deps (done ++ loop prio (children deps) fuel ready indeg) ∅ indeg' := by
  induction fuel generalizing done ready indeg with
  | zero =>
    -- every node is listed, so none can be ready
    have hperm : done.Perm deps.keys := by
      refine List.Subperm.perm_of_length_le
        (subperm_of_subset h.nodup fun x hx => ExtTreeMap.mem_keys.2 (h.sub x hx)) ?_
      rw [ExtTreeMap.length_keys]
      omega
    have hready : ready = ∅ := by
      refine eq_empty_iff_forall_not_mem.2 fun e he => ?_
      obtain ⟨-, hd, hnd, -⟩ := (h.mem_ready e).1 he
      exact hnd (hperm.mem_iff.2 (ExtTreeMap.mem_keys.2 hd))
    subst hready
    exact ⟨indeg, by simpa [Kahn.loop] using h⟩
  | succ fuel ih =>
    unfold Kahn.loop
    cases hmin : ready.toList.head? with
    | none =>
      have hready : ready = ∅ := by
        refine eq_empty_iff_forall_not_mem.2 fun e he => ?_
        rw [head?_eq_none_iff] at hmin
        rw [← mem_toList, hmin] at he
        exact not_mem_nil he
      subst hready
      exact ⟨indeg, by simpa using h⟩
    | some e =>
      have he : e ∈ ready := mem_toList.1 (mem_of_head? hmin)
      have := ih (h.step he) (by rw [length_append, length_singleton]; omega)
      simpa using this

/-! ## The order -/

theorem order_inv (prio : α → κ) (deps : BTreeMap α (BTreeSet α)) :
    ∃ indeg, LoopInv prio deps (order prio deps) ∅ indeg := by
  have hinit : LoopInv prio deps [] (initial prio deps) (counts deps) := LoopInv.init
  simpa [order] using hinit.loop deps.size (by simp)

theorem order_nodup : (order prio deps).Nodup := by
  obtain ⟨_, h⟩ := order_inv prio deps
  exact h.nodup

theorem mem_of_mem_order (h : a ∈ order prio deps) : a ∈ deps := by
  obtain ⟨_, hinv⟩ := order_inv prio deps
  exact hinv.sub a h

/-- A listed node follows all of its dependencies inside the graph. -/
theorem order_before {l r : List α} (h : order prio deps = l ++ a :: r) : ∀ d ∈ inside deps a, d ∈ l := by
  obtain ⟨_, hinv⟩ := order_inv prio deps
  exact hinv.before l a r h

/-- When dependencies decrease a rank, every node is listed. -/
theorem mem_order_of_rank (rank : α → ℕ) (hrank : ∀ a ∈ deps, ∀ d ∈ inside deps a, rank d < rank a)
    (ha : a ∈ deps) : a ∈ order prio deps := by
  obtain ⟨_, hinv⟩ := order_inv prio deps
  -- a node of least rank among those left out would be ready
  induction hr : rank a using Nat.strong_induction_on generalizing a with
  | _ n ih =>
    by_contra hna
    have hready : (prio a, a) ∈ (∅ : BTreeSet (κ × α)) := by
      refine (hinv.mem_ready _).2 ⟨rfl, ha, hna, fun d hd => ?_⟩
      exact ih (rank d) (hr ▸ hrank a ha d hd) (mem_inside.1 hd).2 rfl
    simp at hready

end Irokle.Kahn
