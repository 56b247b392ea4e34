import Irokle.Lib.Kahn

/-!
# Topological order with a queue

Kahn's algorithm over nodes that carry a value and the number of their dependencies not listed yet:
the oldest ready node is listed and taken out, and the counts of those that depend on it go down.

* `KahnQueue.Inv.drain` — the invariant of the loop holds at its end with nothing ready;
* `KahnQueue.Inv.cycle` — nodes left out then have a cycle among them.
-/

namespace Irokle.KahnQueue

open Std Relation List ExtTreeMap

variable {α β : Type} [LinearOrder α]

/-- One dependency of `child` was listed: it is ready once none is left. -/
def release (st : List α × BTreeMap α (β × ℕ)) (child : α) : List α × BTreeMap α (β × ℕ) :=
  match st.2[child]? with
  | none => st
  | some (b, count) => (if count - 1 = 0 then st.1 ++ [child] else st.1, st.2.insert child (b, count - 1))

/-- List the nodes of the queue and those that become ready, in at most `fuel` rounds. -/
def drain (next : BTreeMap α (BTreeSet α)) : ℕ → List α → BTreeMap α (β × ℕ) → List (α × β)
  | 0, _, _ => []
  | _ + 1, [], _ => []
  | fuel + 1, a :: ready, present =>
    match present[a]? with
    | none => drain next fuel ready present
    | some (b, _) =>
      let st := (SetMap.get next a).toList.foldl release (ready, present.erase a)
      (a, b) :: drain next fuel st.1 st.2

variable {next : BTreeMap α (BTreeSet α)} {nodes : BTreeMap α β} {present : BTreeMap α (β × ℕ)}
  {done ready : List α} {a b x : α}

/-- The nodes a node depends on. -/
def preds (next : BTreeMap α (BTreeSet α)) (nodes : BTreeMap α β) (x : α) : List α :=
  nodes.keys.filter fun d => decide (x ∈ SetMap.get next d)

theorem mem_preds : a ∈ preds next nodes x ↔ a ∈ nodes ∧ x ∈ SetMap.get next a := by
  simp [preds, ExtTreeMap.mem_keys]

theorem preds_nodup : (preds next nodes x).Nodup :=
  (nodes.distinct_keys.imp fun h => by simpa using h).filter _

/-- How many dependencies of `x` are outside `done`. -/
def waiting (next : BTreeMap α (BTreeSet α)) (nodes : BTreeMap α β) (done : List α) (x : α) : ℕ :=
  ((preds next nodes x).filter fun d => decide (d ∉ done)).length

theorem waiting_eq_zero : waiting next nodes done x = 0 ↔ ∀ d ∈ preds next nodes x, d ∈ done := by
  simp [waiting, length_eq_zero_iff, filter_eq_nil_iff]

theorem waiting_snoc (ha : a ∉ done) : waiting next nodes (done ++ [a]) x =
    waiting next nodes done x - if a ∈ preds next nodes x then 1 else 0 :=
  Kahn.length_filter_snoc preds_nodup ha

/-- Releasing distinct children decrements their counts and queues those that reach zero. -/
theorem release_foldl {l : List α} (hl : l.Nodup) (st : List α × BTreeMap α (β × ℕ)) :
    (∀ x, (l.foldl release st).2[x]? = if x ∈ l then st.2[x]?.map fun e => (e.1, e.2 - 1) else st.2[x]?) ∧
      (l.foldl release st).1 = st.1 ++ l.filter fun x => st.2[x]?.any fun e => decide (e.2 - 1 = 0) := by
  induction l generalizing st with
  | nil => simp
  | cons y l ih =>
    obtain ⟨hy, hl⟩ := nodup_cons.1 hl
    obtain ⟨ih2, ih1⟩ := ih hl (release st y)
    have h2 : ∀ x, (release st y).2[x]? = if y = x then st.2[x]?.map fun e => (e.1, e.2 - 1) else st.2[x]? := by
      intro x
      unfold release
      cases hc : st.2[y]? with
      | none =>
        by_cases h : y = x
        · subst h; simp [hc]
        · simp [h]
      | some e =>
        by_cases h : y = x
        · subst h; simp [hc]
        · simp [h, ExtTreeMap.getElem?_insert]
    have h1 : (release st y).1 = st.1 ++ if st.2[y]?.any fun e => decide (e.2 - 1 = 0) then [y] else [] := by
      unfold release
      cases hc : st.2[y]? with
      | none => simp
      | some e => by_cases h0 : e.2 - 1 = 0 <;> simp [h0]
    refine ⟨fun x => ?_, ?_⟩
    · rw [foldl_cons, ih2, h2]
      by_cases hxy : y = x
      · subst hxy; simp [hy]
      · simp [hxy, Ne.symm hxy]
    · have hrest : (l.filter fun x => (release st y).2[x]?.any fun e => decide (e.2 - 1 = 0)) =
          l.filter fun x => st.2[x]?.any fun e => decide (e.2 - 1 = 0) := by
        refine filter_congr fun x hx => ?_
        have hne : y ≠ x := fun h => hy (h ▸ hx)
        rw [h2, if_neg hne]
      rw [foldl_cons, ih1, h1, hrest, append_assoc, filter_cons]
      split <;> rfl

/-- What holds of the listed nodes, the queue and the nodes left between two rounds. -/
structure Inv (next : BTreeMap α (BTreeSet α)) (nodes : BTreeMap α β) (done ready : List α)
    (present : BTreeMap α (β × ℕ)) : Prop where
  nodup : done.Nodup
  sub : ∀ x ∈ done, x ∈ nodes
  before : ∀ l x r, done = l ++ x :: r → ∀ d ∈ preds next nodes x, d ∈ l
  ready_nodup : ready.Nodup
  mem_ready : ∀ x, x ∈ ready ↔ x ∈ nodes ∧ x ∉ done ∧ ∀ d ∈ preds next nodes x, d ∈ done
  left : ∀ x, present[x]? = if x ∈ done then none else nodes[x]?.map fun b => (b, waiting next nodes done x)

/-- Listing the first node of the queue keeps the invariant. -/
theorem Inv.step (h : Inv next nodes done (a :: ready) present) :
    let st := (SetMap.get next a).toList.foldl release (ready, present.erase a)
    Inv next nodes (done ++ [a]) st.1 st.2 := by
  intro st
  obtain ⟨hd, hnd, hdeps⟩ := (h.mem_ready a).1 mem_cons_self
  obtain ⟨hst2, hst1⟩ := release_foldl (BTreeSet.nodup_toList (SetMap.get next a)) (ready, present.erase a)
  have hself : a ∉ preds next nodes a := fun ha => hnd (hdeps a ha)
  -- a child of `a` is not listed yet, since it would follow `a`
  have hchild : ∀ x, a ∈ preds next nodes x → x ∉ done := by
    intro x hx hxd
    obtain ⟨l, r, hlr⟩ := append_of_mem hxd
    exact hnd (hlr ▸ mem_append_left _ (h.before l x r hlr a hx))
  have hleft : ∀ x, (present.erase a)[x]? =
      if x ∈ done ++ [a] then none else nodes[x]?.map fun b => (b, waiting next nodes done x) := by
    intro x
    rw [getElem?_erase]
    by_cases hxa : a = x
    · simp [hxa]
    · simp [hxa, Ne.symm hxa, h.left]
  refine ⟨?_, ?_, ?_, ?_, ?_, ?_⟩
  · exact h.nodup.append (nodup_singleton _) (by simpa using hnd)
  · simpa [or_imp, forall_and, hd] using h.sub
  · exact Kahn.forall_split_snoc h.before hdeps
  · rw [hst1]
    refine nodup_append.2 ⟨(nodup_cons.1 h.ready_nodup).2, (BTreeSet.nodup_toList _).filter _, ?_⟩
    rintro x hx y hy rfl
    -- a queued node waits for nothing, and `x` was waiting for `a`
    obtain ⟨-, -, hall⟩ := (h.mem_ready x).1 (mem_cons_of_mem _ hx)
    exact hnd (hall a (mem_preds.2 ⟨hd, by simpa using (List.mem_filter.1 hy).1⟩))
  · intro x
    have hqueued : x ∈ st.1 ↔ x ∈ ready ∨ x ∈ nodes ∧ a ∈ preds next nodes x ∧ x ∉ done ++ [a] ∧
        waiting next nodes done x - 1 = 0 := by
      rw [hst1, mem_append, List.mem_filter, ExtTreeSet.mem_toList, hleft]
      refine or_congr_right ?_
      rw [mem_preds]
      by_cases hx : x ∈ done ++ [a]
      · simp [hx]
      · rw [if_neg hx]
        cases hn : nodes[x]? with
        | none =>
          have : x ∉ nodes := by rw [mem_iff_isSome_getElem?, hn]; simp
          simp [this]
        | some b =>
          have : x ∈ nodes := by rw [mem_iff_isSome_getElem?, hn]; rfl
          simp [this, hx, hd]
    rw [hqueued]
    constructor
    · rintro (hx | ⟨hxn, hax, hxd, hw⟩)
      · obtain ⟨hxn, hxd, hall⟩ := (h.mem_ready x).1 (mem_cons_of_mem _ hx)
        have hxa : x ≠ a := fun h' => (nodup_cons.1 h.ready_nodup).1 (h' ▸ hx)
        exact ⟨hxn, by simp [hxd, hxa], fun d hdx => mem_append_left _ (hall d hdx)⟩
      · refine ⟨hxn, hxd, waiting_eq_zero.1 ?_⟩
        rw [waiting_snoc hnd, if_pos hax, hw]
    · rintro ⟨hxn, hxd, hall⟩
      by_cases hax : a ∈ preds next nodes x
      · refine Or.inr ⟨hxn, hax, hxd, ?_⟩
        have hw := waiting_eq_zero.2 hall
        rwa [waiting_snoc hnd, if_pos hax] at hw
      · rw [mem_append, mem_singleton, not_or] at hxd
        have hin : x ∈ a :: ready := (h.mem_ready x).2 ⟨hxn, hxd.1, fun d hdx => by
          rcases mem_append.1 (hall d hdx) with hd' | hd'
          · exact hd'
          · exact absurd (mem_singleton.1 hd' ▸ hdx) hax⟩
        exact Or.inl ((mem_cons.1 hin).resolve_left hxd.2)
  · intro x
    rw [hst2, hleft]
    by_cases hx : x ∈ done ++ [a]
    · simp [hx]
    · rw [if_neg hx, if_neg hx, waiting_snoc hnd]
      cases hn : nodes[x]? with
      | none => simp
      | some b =>
        by_cases hax : x ∈ SetMap.get next a
        · simp [hax, mem_preds, hd]
        · simp [hax, mem_preds]

/-- **The loop ends with nothing ready**, having listed each node with its value. -/
theorem Inv.drain (h : Inv next nodes done ready present) {fuel : ℕ} (hfuel : nodes.size < fuel + done.length) :
    (∃ present', Inv next nodes (done ++ (drain next fuel ready present).map Prod.fst) [] present') ∧
      ∀ e ∈ KahnQueue.drain next fuel ready present, nodes[e.1]? = some e.2 := by
  induction fuel generalizing done ready present with
  | zero =>
    have hle : done.length ≤ nodes.size := by
      rw [← length_keys]
      exact (subperm_of_subset h.nodup fun x hx => ExtTreeMap.mem_keys.2 (h.sub x hx)).length_le
    omega
  | succ fuel ih =>
    cases ready with
    | nil => exact ⟨⟨present, by simpa [KahnQueue.drain] using h⟩, by simp [KahnQueue.drain]⟩
    | cons a ready =>
      obtain ⟨hd, hnd, -⟩ := (h.mem_ready a).1 mem_cons_self
      obtain ⟨b, hb⟩ := Option.isSome_iff_exists.1 (mem_iff_isSome_getElem?.1 hd)
      have hpresent : present[a]? = some (b, waiting next nodes done a) := by
        rw [h.left, if_neg hnd, hb]; rfl
      obtain ⟨hinv, hvals⟩ := ih h.step (by rw [length_append, length_singleton]; omega)
      unfold KahnQueue.drain
      rw [hpresent]
      refine ⟨by simpa using hinv, ?_⟩
      intro e he
      rcases mem_cons.1 he with rfl | he
      · exact hb
      · exact hvals e he

/-- In a finite set where each element has a predecessor in the set, some element precedes itself. -/
theorem exists_cycle {γ : Type} {R : γ → γ → Prop} {l : List γ} (hne : ∃ x, x ∈ l)
    (hpred : ∀ x ∈ l, ∃ y ∈ l, R x y) : ∃ x ∈ l, TransGen (fun a b => R a b ∧ a ∈ l ∧ b ∈ l) x x := by
  by_contra hno
  push Not at hno
  set S := fun a b : { x // x ∈ l } => TransGen (fun a b => R a b ∧ a ∈ l ∧ b ∈ l) b.1 a.1
  have : IsTrans { x // x ∈ l } S := ⟨fun a b c hab hbc => TransGen.trans hbc hab⟩
  have : Std.Irrefl S := ⟨fun a h => hno a.1 a.2 h⟩
  have : Finite { x // x ∈ l } := finite_toSet l
  have hwf : WellFounded S := Finite.wellFounded_of_trans_of_irrefl S
  obtain ⟨x, hx⟩ := hne
  obtain ⟨m, -, hmin⟩ := hwf.has_min Set.univ ⟨⟨x, hx⟩, trivial⟩
  obtain ⟨y, hy, hmy⟩ := hpred m.1 m.2
  exact hmin ⟨y, hy⟩ trivial (.single ⟨hmy, m.2, hy⟩)

/-- All nodes are listed when as many are listed as there are. -/
theorem Inv.perm (h : Inv next nodes done ready present) (hlen : done.length = nodes.size) :
    done.Perm nodes.keys := by
  refine (subperm_of_subset h.nodup fun x hx => ExtTreeMap.mem_keys.2 (h.sub x hx)).perm_of_length_le ?_
  rw [length_keys, hlen]

/-- **With nothing ready, nodes left out have a cycle of dependencies among them.** -/
theorem Inv.cycle (h : Inv next nodes done [] present) (hlen : done.length ≠ nodes.size) :
    ∃ x, TransGen (fun a b => b ∈ preds next nodes a ∧ a ∈ nodes) x x := by
  set rest := nodes.keys.filter fun x => decide (x ∉ done) with hrest
  have hmem : ∀ x, x ∈ rest ↔ x ∈ nodes ∧ x ∉ done := by
    intro x
    rw [hrest, List.mem_filter, ExtTreeMap.mem_keys, decide_eq_true_eq]
  have hne : ∃ x, x ∈ rest := by
    by_contra hno
    push Not at hno
    refine hlen ?_
    have hall : ∀ x, x ∈ done ↔ x ∈ nodes.keys := by
      intro x
      rw [ExtTreeMap.mem_keys]
      refine ⟨h.sub x, fun hx => ?_⟩
      by_contra hxd
      exact hno x ((hmem x).2 ⟨hx, hxd⟩)
    have hkeys : nodes.keys.Nodup := nodes.distinct_keys.imp fun h => by simpa using h
    rw [← length_keys]
    exact ((perm_ext_iff_of_nodup h.nodup hkeys).2 hall).length_eq
  -- a node left out is not ready, so it waits for a node left out
  have hpred : ∀ x ∈ rest, ∃ y ∈ rest, y ∈ preds next nodes x := by
    intro x hx
    obtain ⟨hxn, hxd⟩ := (hmem x).1 hx
    by_contra hno
    push Not at hno
    have hready : x ∈ ([] : List α) := (h.mem_ready x).2 ⟨hxn, hxd, fun d hd => by
      by_contra hdd
      exact hno d ((hmem d).2 ⟨(mem_preds.1 hd).1, hdd⟩) hd⟩
    simp at hready
  obtain ⟨x, -, hcycle⟩ := exists_cycle hne hpred
  exact ⟨x, TransGen.mono (fun a b hab => ⟨hab.1, ((hmem a).1 hab.2.1).1⟩) _ _ hcycle⟩

end Irokle.KahnQueue
