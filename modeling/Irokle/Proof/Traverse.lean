import Irokle.Lib.Postorder
import Irokle.Spec.Traverse

/-!
# History traversal: what is listed

The loop of `traverse_dag` is the depth-first search of `Lib/Postorder` over the predecessors in
the order the query visits them, with the heads filtered out and an early return.

* `traverseLoop_search` — the loop against the search;
* `traverseDag_exact` — over any finite graph the walk ends; without a limit it lists each id reached
  from the heads once, predecessors on the proper side when there is no cycle, and with a limit the
  first ids of that list.
-/

namespace Irokle

open Relation Postorder

variable {I : Type} {query : DagQuery I} {parents : I → List I} {nodes seen : Finset I}
  {stack : List (I × Bool)} {n : ℕ} {l out : List I}

/-- The ids in the order a query visits them. -/
def DagQuery.arranged (query : DagQuery I) (ids : List I) : List I :=
  if query.order = .oldestFirst then ids else ids.reverse

theorem DagQuery.pushed_eq (query : DagQuery I) (ids : List I) :
    query.pushed ids = (query.arranged ids).map (·, false) := by
  unfold DagQuery.pushed DagQuery.arranged
  split <;> simp

@[simp] theorem DagQuery.mem_arranged {query : DagQuery I} {ids : List I} {id : I} :
    id ∈ query.arranged ids ↔ id ∈ ids := by
  unfold DagQuery.arranged
  split <;> simp

theorem DagQuery.step_arranged (query : DagQuery I) (parents : I → List I) :
    Step (fun id => query.arranged (parents id)) = Step parents := by
  funext a b
  simp [Step]

/-- Once a list that was not full is, the limit is its length. -/
theorem DagQuery.full_snoc {id : I} (hout : query.full out = false) (hfull : query.full (out ++ [id]) = true) :
    query.order = .oldestFirst ∧ query.limit = some (out ++ [id]).length := by
  unfold DagQuery.full at hout hfull
  cases hl : query.limit with
  | none => simp [hl] at hfull
  | some k =>
    simp [hl] at hout hfull ⊢
    have := hout hfull.1
    exact ⟨hfull.1, by omega⟩

variable [DecidableEq I]

/-- The loop lists what the search finishes, heads filtered out, up to its early return. -/
theorem traverseLoop_search (h : search (fun id => query.arranged (parents id)) n stack seen = some l)
    (hout : query.full out = false) :
    ∃ r, traverseLoop query parents n stack seen out = some r ∧
      match r with
      | .ok listed => listed = out ++ l.filter query.lists
      | .error listed => query.order = .oldestFirst ∧
          listed = limited (out ++ l.filter query.lists) query.limit := by
  induction n generalizing stack seen l out with
  | zero => simp [search] at h
  | succ n ih =>
    rcases stack with _ | ⟨⟨id, _ | _⟩, stack⟩
    · cases h
      exact ⟨.ok out, rfl, by simp⟩
    · simp only [search] at h
      simp only [traverseLoop, DagQuery.pushed_eq]
      split at h
      · rw [if_pos ‹_›]; exact ih h hout
      · rw [if_neg ‹_›]; exact ih h hout
    · obtain ⟨rest, hrest, rfl⟩ := Option.map_eq_some_iff.1 h
      simp only [traverseLoop]
      by_cases hl : query.lists id = true
      · rw [if_pos hl]
        cases hfull : query.full (out ++ [id]) with
        | true =>
          obtain ⟨horder, hlimit⟩ := DagQuery.full_snoc hout hfull
          have hsplit : out ++ (id :: rest).filter query.lists = (out ++ [id]) ++ rest.filter query.lists := by
            simp [hl]
          rw [if_pos rfl]
          refine ⟨_, rfl, horder, ?_⟩
          rw [hsplit, hlimit, limited, List.take_left]
        | false =>
          obtain ⟨r, hr, hspec⟩ := ih hrest hfull
          rw [if_neg (by simp)]
          refine ⟨r, hr, ?_⟩
          simpa [hl] using hspec
      · obtain ⟨r, hr, hspec⟩ := ih hrest hout
        rw [if_neg hl]
        refine ⟨r, hr, ?_⟩
        simpa [hl] using hspec

/-- The walk against the search. -/
theorem traverseDag_search
    (h : search (fun id => query.arranged (parents id)) n ((query.arranged query.heads).map (·, false)) ∅ =
      some l) :
    traverseDag n query parents = some (limited (ordered (l.filter query.lists) query.order) query.limit) := by
  unfold traverseDag
  by_cases h0 : query.limit = some 0
  · rw [if_pos h0, h0]
    simp [limited]
  have hout : query.full ([] : List I) = false := by
    unfold DagQuery.full
    cases hl : query.limit with
    | none => simp
    | some k => rw [hl, Option.some.injEq] at h0; simp; intro _; omega
  obtain ⟨r, hr, hspec⟩ := traverseLoop_search h hout
  rw [if_neg h0, DagQuery.pushed_eq, hr]
  cases r with
  | ok listed => simp only [List.nil_append] at hspec; rw [hspec]; rfl
  | error listed =>
    obtain ⟨horder, rfl⟩ := hspec
    simp [ordered, horder]

/-- **The walk is exact.** Over a finite graph, cycles and repeated heads included, it ends, and what
it returns for any limit is a prefix of one list: the ids reached from the heads, each once, without
the heads when the query leaves them out. When no id precedes itself, that list has every dependency
before what depends on it, or after it for the newest-first order. -/
theorem traverseDag_exact (query : DagQuery I) (parents : I → List I) (nodes : Finset I)
    (hheads : ∀ id ∈ query.heads, id ∈ nodes) (hclosed : ∀ id ∈ nodes, ∀ p ∈ parents id, p ∈ nodes) :
    ∃ fuel all, (∀ n, fuel ≤ n → ∀ limit,
        traverseDag n { query with limit := limit } parents = some (limited all limit)) ∧
      all.Nodup ∧
      (∀ id, id ∈ all ↔ (∃ h ∈ query.heads, ReflTransGen (fun a b => b ∈ parents a) h id) ∧
        (query.includeHeads = true ∨ id ∉ query.heads)) ∧
      ((∀ a ∈ nodes, ¬ TransGen (fun a b => b ∈ parents a) a a) →
        all.Pairwise fun a b => match query.order with
          | .oldestFirst => ¬ TransGen (fun a b => b ∈ parents a) a b
          | .newestFirst => ¬ TransGen (fun a b => b ∈ parents a) b a) := by
  set next : I → List I := fun id => query.arranged (parents id) with hnext
  set starts := query.arranged query.heads with hstarts
  have hstep : (fun a b => b ∈ parents a) = Step next := (query.step_arranged parents).symm
  -- the search ends within the cost of the whole graph
  have hcl : Closed next nodes := fun a ha b hb => hclosed a ha b (DagQuery.mem_arranged.1 hb)
  have hst : ∀ a ∈ starts, a ∈ nodes := fun a ha => hheads a (DagQuery.mem_arranged.1 ha)
  have hsome : (search next (cost next nodes ∅ (starts.map (·, false)) + 1) (starts.map (·, false)) ∅).isSome :=
    search_isSome hcl (@nested_starts _ next nodes starts hst).inside (Nat.lt_succ_self _)
  obtain ⟨l, hl⟩ := Option.isSome_iff_exists.1 hsome
  have hnodup := search_nodup (marked_starts starts) hl
  have hmem : ∀ id, id ∈ l ↔ ∃ h ∈ query.heads, ReflTransGen (Step next) h id := by
    intro id
    rw [mem_search hl]
    simp [hstarts]
  refine ⟨cost next nodes ∅ (starts.map (·, false)) + 1, ordered (l.filter query.lists) query.order,
    fun n hn limit => ?_, ?_, fun id => ?_, fun hac => ?_⟩
  · exact @traverseDag_search _ { query with limit := limit } parents n l _ (search_mono hl hn)
  · unfold ordered
    split
    · exact List.nodup_reverse.2 (hnodup.filter _)
    · exact hnodup.filter _
  · have hord : id ∈ ordered (l.filter query.lists) query.order ↔ id ∈ l.filter query.lists := by
      unfold ordered
      split <;> simp
    rw [hord, List.mem_filter, hmem, hstep]
    simp [DagQuery.lists]
  · rw [hstep] at hac ⊢
    have hpair := (search_pairwise hcl hac hst hl).filter query.lists
    unfold ordered
    cases horder : query.order with
    | oldestFirst => simpa using hpair
    | newestFirst => simpa [List.pairwise_reverse] using hpair

/-- A walk over a graph with a cycle, a dangling predecessor and a repeated head. -/
theorem traverseDag_exact_cycle :
    ∃ fuel all, (∀ n, fuel ≤ n → ∀ limit,
        traverseDag n { heads := [1, 1, 2], includeHeads := false, limit := limit }
          (fun id : ℕ => if id = 1 then [3, 2] else if id = 3 then [1, 4] else []) = some (limited all limit)) ∧
      all.Nodup := by
  obtain ⟨fuel, all, hrun, hnodup, -⟩ :=
    traverseDag_exact { heads := [1, 1, 2], includeHeads := false }
      (fun id : ℕ => if id = 1 then [3, 2] else if id = 3 then [1, 4] else []) {1, 2, 3, 4}
      (by decide) (by decide)
  exact ⟨fuel, all, hrun, hnodup⟩

end Irokle
