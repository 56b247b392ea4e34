import Mathlib.Algebra.BigOperators.Group.Finset.Basic
import Mathlib.Algebra.Order.BigOperators.Group.Finset
import Mathlib.Logic.Relation
import Mathlib.Data.List.Nodup

/-!
# Depth-first postorder

An iterative depth-first search over a graph given by successor lists. A stack entry is a node to
visit, or a node already opened whose successors stand above it; taking an opened node off finishes
it. The search lists the nodes in the order in which they are finished.

* `Postorder.search_isSome` — over a finite set of nodes closed under successors the search ends;
* `Postorder.mem_search` — it finishes what the stack reaches;
* `Postorder.search_nodup` — every node once;
* `Postorder.search_closed`, `Postorder.search_pairwise` — without a cycle, after all it leads to.
-/

namespace Irokle.Postorder

open Relation List

variable {α : Type*}

/-- Finish the nodes of a stack, top first, in at most `fuel` rounds; the flag marks opened nodes. -/
def search [DecidableEq α] (next : α → List α) : ℕ → List (α × Bool) → Finset α → Option (List α)
  | 0, _, _ => none
  | _ + 1, [], _ => some []
  | fuel + 1, (a, true) :: stack, seen => (search next fuel stack seen).map (a :: ·)
  | fuel + 1, (a, false) :: stack, seen =>
    if a ∈ seen then search next fuel stack seen
    else search next fuel ((next a).map (·, false) ++ (a, true) :: stack) (insert a seen)

/-- One step along the successor lists. -/
def Step (next : α → List α) (a b : α) : Prop := b ∈ next a

/-- The successors of the nodes are nodes. -/
def Closed (next : α → List α) (nodes : Finset α) : Prop := ∀ a ∈ nodes, ∀ b ∈ next a, b ∈ nodes

/-- No node leads back to itself. -/
def Acyclic (next : α → List α) (nodes : Finset α) : Prop := ∀ a ∈ nodes, ¬ TransGen (Step next) a a

variable {next : α → List α} {stack : List (α × Bool)} {seen nodes : Finset α} {out : List α} {n : ℕ} {a b : α}

/-- Opening a node pushes nodes. -/
theorem Closed.visit (hclosed : Closed next nodes) (hstack : ∀ e ∈ (a, false) :: stack, e.1 ∈ nodes) :
    ∀ e ∈ (next a).map (·, false) ++ (a, true) :: stack, e.1 ∈ nodes := by
  intro e he
  have ha : a ∈ nodes := hstack _ (mem_cons_self ..)
  rcases mem_append.1 he with he | he
  · obtain ⟨b, hb, rfl⟩ := mem_map.1 he
    exact hclosed a ha b hb
  · rcases mem_cons.1 he with rfl | he
    · exact ha
    · exact hstack e (mem_cons_of_mem _ he)

/-! ## Termination -/

/-- The rounds a search may still take: the entries on the stack, and for each node not seen yet
its own entry and those of its successors. -/
def cost [DecidableEq α] (next : α → List α) (nodes seen : Finset α) (stack : List (α × Bool)) : ℕ :=
  stack.length + ∑ a ∈ nodes \ seen, ((next a).length + 1)

theorem cost_open [DecidableEq α] (ha : a ∈ nodes) (hs : a ∉ seen) :
    cost next nodes (insert a seen) ((next a).map (·, false) ++ (a, true) :: stack) + 1 =
      cost next nodes seen ((a, false) :: stack) := by
  have hsplit : nodes \ seen = insert a (nodes \ insert a seen) := by
    ext x
    simp only [Finset.mem_sdiff, Finset.mem_insert]
    by_cases hx : x = a
    · simp [hx, ha, hs]
    · simp [hx]
  unfold cost
  rw [hsplit, Finset.sum_insert (by simp)]
  simp
  omega

/-- **The search ends**: over a finite set of nodes closed under successors, its cost bounds the
rounds it takes. -/
theorem search_isSome [DecidableEq α] (hclosed : Closed next nodes) (hstack : ∀ e ∈ stack, e.1 ∈ nodes)
    (hn : cost next nodes seen stack < n) : (search next n stack seen).isSome := by
  induction n generalizing stack seen with
  | zero => omega
  | succ n ih =>
    match stack with
    | [] => rfl
    | (a, true) :: stack =>
      have hrest := @ih stack seen (fun e he => hstack e (mem_cons_of_mem _ he))
        (by simp only [cost, length_cons] at hn ⊢; omega)
      simpa [search] using hrest
    | (a, false) :: stack =>
      have ha : a ∈ nodes := hstack _ (mem_cons_self ..)
      have hrest : ∀ e ∈ stack, e.1 ∈ nodes := fun e he => hstack e (mem_cons_of_mem _ he)
      unfold search
      split
      · exact ih hrest (by simp only [cost, length_cons] at hn ⊢; omega)
      · rename_i hs
        have hcost := @cost_open _ next stack seen nodes a _ ha hs
        exact ih (hclosed.visit hstack) (by omega)

/-- More rounds do not change the result. -/
theorem search_mono [DecidableEq α] {m : ℕ} (h : search next n stack seen = some out) (hm : n ≤ m) :
    search next m stack seen = some out := by
  induction n generalizing m stack seen out with
  | zero => simp [search] at h
  | succ n ih =>
    obtain ⟨m, rfl⟩ : ∃ k, m = k + 1 := ⟨m - 1, by omega⟩
    have hm : n ≤ m := by omega
    match stack with
    | [] => exact h
    | (a, true) :: stack =>
      simp only [search, Option.map_eq_some_iff] at h ⊢
      obtain ⟨rest, hrest, rfl⟩ := h
      exact ⟨rest, ih hrest hm, rfl⟩
    | (a, false) :: stack =>
      simp only [search] at h ⊢
      split at h
      · rw [if_pos ‹_›]; exact ih h hm
      · rw [if_neg ‹_›]; exact ih h hm

/-! ## What is finished -/

/-- `b` is reached from a node to visit, along nodes not seen. -/
def Fresh (next : α → List α) (seen : Finset α) (stack : List (α × Bool)) (b : α) : Prop :=
  ∃ a, (a, false) ∈ stack ∧ a ∉ seen ∧ ReflTransGen (fun x y => y ∈ next x ∧ y ∉ seen) a b

/-- Opening a node leaves to its successors what was reached through it. -/
theorem fresh_open [DecidableEq α] (hs : a ∉ seen) : Fresh next seen ((a, false) :: stack) b ↔
    b = a ∨ Fresh next (insert a seen) ((next a).map (·, false) ++ (a, true) :: stack) b := by
  constructor
  · rintro ⟨c, hc, hcs, hreach⟩
    induction hreach with
    | refl =>
      by_cases hca : c = a
      · exact Or.inl hca
      · refine Or.inr ⟨c, ?_, by simp [hca, hcs], .refl⟩
        simp only [mem_cons, Prod.mk.injEq, hca, false_and, false_or] at hc
        simp [hc]
    | @tail x y _ hxy ih =>
      by_cases hya : y = a
      · exact Or.inl hya
      have hy : y ∉ insert a seen := by simp [hya, hxy.2]
      rcases ih with rfl | ⟨d, hd, hds, hdx⟩
      · exact Or.inr ⟨y, by simp [hxy.1], hy, .refl⟩
      · exact Or.inr ⟨d, hd, hds, hdx.tail ⟨hxy.1, hy⟩⟩
  · have hself : Fresh next seen ((a, false) :: stack) a := ⟨a, mem_cons_self .., hs, .refl⟩
    rintro (rfl | ⟨c, hc, hcs, hreach⟩)
    · exact hself
    have hwiden : ReflTransGen (fun x y => y ∈ next x ∧ y ∉ seen) c b :=
      ReflTransGen.mono (fun x y hxy => ⟨hxy.1, fun h => hxy.2 (Finset.mem_insert_of_mem h)⟩) _ _ hreach
    have hcs' : c ∉ seen := fun h => hcs (Finset.mem_insert_of_mem h)
    have hc' : c ∈ next a ∨ (c, false) ∈ stack := by simpa using hc
    rcases hc' with hc | hc
    · exact ⟨a, mem_cons_self .., hs, hwiden.head ⟨hc, hcs'⟩⟩
    · exact ⟨c, mem_cons_of_mem _ hc, hcs', hwiden⟩

theorem fresh_skip (hs : a ∈ seen) : Fresh next seen ((a, false) :: stack) b ↔ Fresh next seen stack b := by
  constructor
  · rintro ⟨c, hc, hcs, hreach⟩
    rcases mem_cons.1 hc with h | hc
    · cases h; exact absurd hs hcs
    · exact ⟨c, hc, hcs, hreach⟩
  · rintro ⟨c, hc, hcs, hreach⟩
    exact ⟨c, mem_cons_of_mem _ hc, hcs, hreach⟩

theorem fresh_finish : Fresh next seen ((a, true) :: stack) b ↔ Fresh next seen stack b := by
  simp [Fresh]

/-- A search finishes the opened nodes of its stack and what the nodes to visit reach. -/
theorem mem_search_iff [DecidableEq α] (h : search next n stack seen = some out) :
    b ∈ out ↔ (b, true) ∈ stack ∨ Fresh next seen stack b := by
  induction n generalizing stack seen out with
  | zero => simp [search] at h
  | succ n ih =>
    match stack with
    | [] => cases h; simp [Fresh]
    | (a, true) :: stack =>
      obtain ⟨rest, hrest, rfl⟩ := Option.map_eq_some_iff.1 h
      rw [mem_cons, ih hrest, fresh_finish, mem_cons, or_assoc]
      simp
    | (a, false) :: stack =>
      simp only [search] at h
      split at h
      · rename_i hs
        rw [ih h, fresh_skip hs]
        simp
      · rename_i hs
        rw [ih h, fresh_open hs]
        simp only [mem_append, mem_map, mem_cons, Prod.mk.injEq]
        aesop

/-- **The search finishes what its starts reach.** -/
theorem mem_search [DecidableEq α] {starts : List α} (h : search next n (starts.map (·, false)) ∅ = some out) :
    b ∈ out ↔ ∃ a ∈ starts, ReflTransGen (Step next) a b := by
  rw [mem_search_iff h]
  unfold Step
  simp [Fresh]

/-! ## Each node once -/

/-- The opened nodes of a stack. -/
def opened (stack : List (α × Bool)) : List α := (stack.filter (·.2)).map (·.1)

theorem mem_opened : a ∈ opened stack ↔ (a, true) ∈ stack := by
  simp [opened]

@[simp] theorem opened_finish : opened ((a, true) :: stack) = a :: opened stack := by
  simp [opened]

@[simp] theorem opened_skip : opened ((a, false) :: stack) = opened stack := by
  simp [opened]

@[simp] theorem opened_visit (l : List α) : opened (l.map (·, false) ++ stack) = opened stack := by
  induction l with
  | nil => rfl
  | cons a l ih => rw [map_cons, cons_append, opened_skip, ih]

/-- Nodes are opened once and marked then. -/
structure Marked (seen : Finset α) (stack : List (α × Bool)) : Prop where
  nodup : (opened stack).Nodup
  marked : ∀ a ∈ opened stack, a ∈ seen

theorem marked_starts (starts : List α) : Marked ∅ (starts.map (·, false)) := by
  have hnone : opened (starts.map (·, false)) = [] := by
    have := @opened_visit α [] starts
    rwa [append_nil] at this
  exact ⟨by simp [hnone], by simp [hnone]⟩

theorem Marked.finish (M : Marked seen ((a, true) :: stack)) : Marked seen stack where
  nodup := by have := M.nodup; rw [opened_finish] at this; exact this.of_cons
  marked := fun b hb => M.marked b (by simp [hb])

theorem Marked.skip (M : Marked seen ((a, false) :: stack)) : Marked seen stack where
  nodup := by have := M.nodup; rwa [opened_skip] at this
  marked := fun b hb => M.marked b (by simpa using hb)

theorem Marked.visit [DecidableEq α] (M : Marked seen ((a, false) :: stack)) (hs : a ∉ seen) :
    Marked (insert a seen) ((next a).map (·, false) ++ (a, true) :: stack) where
  nodup := by
    rw [opened_visit, opened_finish, nodup_cons]
    exact ⟨fun h => hs (M.skip.marked a h), M.skip.nodup⟩
  marked := by
    intro b hb
    rw [opened_visit, opened_finish, mem_cons] at hb
    rcases hb with rfl | hb
    · exact Finset.mem_insert_self ..
    · exact Finset.mem_insert_of_mem (M.skip.marked b hb)

/-- **No node is finished twice.** -/
theorem search_nodup [DecidableEq α] (M : Marked seen stack) (h : search next n stack seen = some out) :
    out.Nodup := by
  induction n generalizing stack seen out with
  | zero => simp [search] at h
  | succ n ih =>
    match stack with
    | [] => cases h; exact nodup_nil
    | (a, true) :: stack =>
      obtain ⟨rest, hrest, rfl⟩ := Option.map_eq_some_iff.1 h
      refine nodup_cons.2 ⟨fun ha => ?_, ih M.finish hrest⟩
      rcases (mem_search_iff hrest).1 ha with ha | ⟨c, -, hcs, hreach⟩
      · have := M.nodup
        rw [opened_finish, nodup_cons] at this
        exact this.1 (mem_opened.2 ha)
      · -- what is reached afresh was not seen, and `a` was
        have haseen : a ∈ seen := M.marked a (by simp)
        rcases hreach.cases_tail with rfl | ⟨x, -, hx⟩
        · exact hcs haseen
        · exact hx.2 haseen
    | (a, false) :: stack =>
      simp only [search] at h
      split at h
      · exact ih M.skip h
      · exact ih (M.visit ‹_›) h

/-! ## The order -/

/-- What stands above an opened node is reached from it, and each of its successors is finished or
stands above it. -/
structure Nested (next : α → List α) (nodes seen : Finset α) (stack : List (α × Bool)) : Prop extends
    Marked seen stack where
  inside : ∀ e ∈ stack, e.1 ∈ nodes
  reached : ∀ l a r, stack = l ++ (a, true) :: r → ∀ e ∈ l, TransGen (Step next) a e.1
  covered : ∀ l a r, stack = l ++ (a, true) :: r → ∀ b ∈ next a,
    b ∈ seen ∧ (b, true) ∉ stack ∨ (b, false) ∈ l ∨ (b, true) ∈ l

theorem nested_starts {starts : List α} (hstarts : ∀ a ∈ starts, a ∈ nodes) :
    Nested next nodes ∅ (starts.map (·, false)) where
  toMarked := marked_starts starts
  inside := by
    intro e he
    obtain ⟨a, ha, rfl⟩ := mem_map.1 he
    exact hstarts a ha
  reached := by
    intro l a r h
    have : (a, true) ∈ starts.map (·, false) := by simp [h]
    simp at this
  covered := by
    intro l a r h
    have : (a, true) ∈ starts.map (·, false) := by simp [h]
    simp at this

theorem Nested.finish (N : Nested next nodes seen ((a, true) :: stack)) : Nested next nodes seen stack where
  toMarked := N.toMarked.finish
  inside := fun e he => N.inside e (mem_cons_of_mem _ he)
  reached := by
    intro l c r h e he
    exact N.reached ((a, true) :: l) c r (by rw [h]; rfl) e (mem_cons_of_mem _ he)
  covered := by
    intro l c r h b hb
    have ha : (a, true) ∉ stack := by
      have := N.nodup
      rw [opened_finish, nodup_cons] at this
      exact fun h => this.1 (mem_opened.2 h)
    rcases N.covered ((a, true) :: l) c r (by rw [h]; rfl) b hb with h | h | h
    · exact Or.inl ⟨h.1, fun hm => h.2 (mem_cons_of_mem _ hm)⟩
    · exact Or.inr (Or.inl (by simpa using h))
    · rcases mem_cons.1 h with h | h
      · -- the node just finished
        cases h
        exact Or.inl ⟨N.marked a (by simp), ha⟩
      · exact Or.inr (Or.inr h)

theorem Nested.skip (N : Nested next nodes seen ((a, false) :: stack)) (hac : Acyclic next nodes)
    (hs : a ∈ seen) :
    Nested next nodes seen stack where
  toMarked := N.toMarked.skip
  inside := fun e he => N.inside e (mem_cons_of_mem _ he)
  reached := by
    intro l c r h e he
    exact N.reached ((a, false) :: l) c r (by rw [h]; rfl) e (mem_cons_of_mem _ he)
  covered := by
    intro l c r h b hb
    rcases N.covered ((a, false) :: l) c r (by rw [h]; rfl) b hb with h' | h' | h'
    · exact Or.inl ⟨h'.1, fun hm => h'.2 (mem_cons_of_mem _ hm)⟩
    · rcases mem_cons.1 h' with h' | h'
      · cases h'
        by_cases hopen : (a, true) ∈ stack
        · -- an opened node below `c` leads to `c`, and `c` to it
          have ha : a ∈ nodes := N.inside _ (mem_cons_self ..)
          have hcycle : ∀ r', (a, true) ∈ (c, true) :: r' → r' = r → (a, true) ∈ l := by
            rintro r' hm rfl
            exfalso
            rcases mem_cons.1 hm with hm | hm
            · cases hm
              exact hac a ha (.single hb)
            · obtain ⟨r₁, r₂, rfl⟩ := append_of_mem hm
              have hca : TransGen (Step next) a c :=
                N.reached ((a, false) :: l ++ (c, true) :: r₁) a r₂ (by rw [h]; simp) (c, true) (by simp)
              exact hac a ha (hca.tail hb)
          rw [h] at hopen
          rcases mem_append.1 hopen with hm | hm
          · exact Or.inr (Or.inr hm)
          · exact Or.inr (Or.inr (hcycle r hm rfl))
        · exact Or.inl ⟨hs, hopen⟩
      · exact Or.inr (Or.inl h')
    · exact Or.inr (Or.inr (by simpa using h'))

/-- The entries above an opened node, once a fresh node on top of the stack was opened. -/
theorem above_visit {l r : List (α × Bool)} {c : α} {succs : List α}
    (h : succs.map (·, false) ++ (a, true) :: stack = l ++ (c, true) :: r) :
    l = succs.map (·, false) ∧ c = a ∧ r = stack ∨
      ∃ l', l = succs.map (·, false) ++ (a, true) :: l' ∧ stack = l' ++ (c, true) :: r := by
  induction succs generalizing l with
  | nil =>
    cases l with
    | nil => cases h; exact Or.inl ⟨rfl, rfl, rfl⟩
    | cons e l => cases h; exact Or.inr ⟨l, rfl, rfl⟩
  | cons d succs ih =>
    cases l with
    | nil => simp at h
    | cons e l =>
      simp only [map_cons, cons_append, List.cons.injEq] at h
      obtain ⟨rfl, h⟩ := h
      rcases ih h with ⟨rfl, hc, hr⟩ | ⟨l', rfl, hl'⟩
      · exact Or.inl ⟨rfl, hc, hr⟩
      · exact Or.inr ⟨l', rfl, hl'⟩

theorem Nested.visit [DecidableEq α] (N : Nested next nodes seen ((a, false) :: stack))
    (hclosed : Closed next nodes) (hs : a ∉ seen) :
    Nested next nodes (insert a seen) ((next a).map (·, false) ++ (a, true) :: stack) where
  toMarked := N.toMarked.visit hs
  inside := hclosed.visit N.inside
  reached := by
    intro l c r h e he
    rcases above_visit h with ⟨rfl, rfl, rfl⟩ | ⟨l', rfl, rfl⟩
    · obtain ⟨b, hb, rfl⟩ := mem_map.1 he
      exact .single hb
    · have hca : TransGen (Step next) c a :=
        N.reached ((a, false) :: l') c r rfl (a, false) (mem_cons_self ..)
      rcases mem_append.1 he with he | he
      · obtain ⟨b, hb, rfl⟩ := mem_map.1 he
        exact hca.tail hb
      · rcases mem_cons.1 he with rfl | he
        · exact hca
        · exact N.reached ((a, false) :: l') c r rfl e (mem_cons_of_mem _ he)
  covered := by
    intro l c r h b hb
    rcases above_visit h with ⟨rfl, rfl, rfl⟩ | ⟨l', rfl, rfl⟩
    · exact Or.inr (Or.inl (mem_map.2 ⟨b, hb, rfl⟩))
    · rcases N.covered ((a, false) :: l') c r rfl b hb with ⟨hbs, hopen⟩ | hm | hm
      · have hba : b ≠ a := fun h => hs (h ▸ hbs)
        refine Or.inl ⟨Finset.mem_insert_of_mem hbs, ?_⟩
        simpa [hba] using hopen
      · rcases mem_cons.1 hm with hm | hm
        · cases hm
          exact Or.inr (Or.inr (by simp))
        · exact Or.inr (Or.inl (by simp [hm]))
      · exact Or.inr (Or.inr (by simpa using Or.inr hm))

/-- Without a cycle, each successor of a finished node was finished before it, in the search or
before the search. -/
theorem search_covered [DecidableEq α] (hclosed : Closed next nodes) (hac : Acyclic next nodes)
    (N : Nested next nodes seen stack) (h : search next n stack seen = some out) {l r : List α}
    (hout : out = l ++ a :: r) (hb : b ∈ next a) :
    b ∈ l ∨ b ∈ seen ∧ (b, true) ∉ stack := by
  induction n generalizing stack seen out l with
  | zero => simp [search] at h
  | succ n ih =>
    match stack with
    | [] => cases h; simp at hout
    | (c, true) :: stack =>
      obtain ⟨rest, hrest, rfl⟩ := Option.map_eq_some_iff.1 h
      cases l with
      | nil =>
        obtain ⟨rfl, rfl⟩ : c = a ∧ rest = r := by simpa using hout
        rcases N.covered [] c stack rfl b hb with hdone | hm | hm
        · exact Or.inr hdone
        · simp at hm
        · simp at hm
      | cons d l =>
        obtain ⟨rfl, hrest'⟩ : c = d ∧ rest = l ++ a :: r := by simpa using hout
        rcases ih N.finish hrest hrest' with hm | ⟨hbs, hopen⟩
        · exact Or.inl (mem_cons_of_mem _ hm)
        · by_cases hbc : b = c
          · exact Or.inl (by simp [hbc])
          · exact Or.inr ⟨hbs, by simpa [hbc] using hopen⟩
    | (c, false) :: stack =>
      simp only [search] at h
      split at h
      · rcases ih (N.skip hac ‹_›) h hout with hm | ⟨hbs, hopen⟩
        · exact Or.inl hm
        · exact Or.inr ⟨hbs, by simpa using hopen⟩
      · rcases ih (N.visit hclosed ‹_›) h hout with hm | ⟨hbs, hopen⟩
        · exact Or.inl hm
        · simp only [mem_append, mem_cons, not_or, Prod.mk.injEq, and_true] at hopen
          exact Or.inr ⟨(Finset.mem_insert.1 hbs).resolve_left hopen.2.1, by simpa using hopen.2.2⟩

/-- **Without a cycle, a node follows all it leads to.** -/
theorem search_closed [DecidableEq α] (hclosed : Closed next nodes) (hac : Acyclic next nodes) {starts : List α}
    (hstarts : ∀ a ∈ starts, a ∈ nodes)
    (h : search next n (starts.map (·, false)) ∅ = some out) {l r : List α} (hout : out = l ++ a :: r)
    (hab : TransGen (Step next) a b) : b ∈ l := by
  have hstep : ∀ {l r : List α} {x y : α}, out = l ++ x :: r → Step next x y → y ∈ l := by
    intro l r x y hout hy
    rcases search_covered hclosed hac (nested_starts hstarts) h hout hy with hm | ⟨hm, -⟩
    · exact hm
    · simp at hm
  induction hab using TransGen.head_induction_on generalizing l r with
  | single hb => exact hstep hout hb
  | @head x y hxy _ ih =>
    obtain ⟨l₁, l₂, rfl⟩ := append_of_mem (hstep hout hxy)
    have hb := ih (l := l₁) (r := l₂ ++ x :: r) (by rw [hout]; simp)
    exact mem_append_left _ hb

theorem pairwise_of_split {R : α → α → Prop} {l : List α}
    (h : ∀ p a s, l = p ++ a :: s → ∀ b ∈ s, R a b) : l.Pairwise R := by
  induction l with
  | nil => exact .nil
  | cons x l ih => exact .cons (h [] x l rfl) (ih fun p a s hl => h (x :: p) a s (by rw [hl]; rfl))

/-- No finished node leads to a later one. -/
theorem search_pairwise [DecidableEq α] (hclosed : Closed next nodes) (hac : Acyclic next nodes) {starts : List α}
    (hstarts : ∀ a ∈ starts, a ∈ nodes)
    (h : search next n (starts.map (·, false)) ∅ = some out) :
    out.Pairwise fun a b => ¬ TransGen (Step next) a b := by
  have hnodup := search_nodup (marked_starts starts) h
  refine pairwise_of_split fun l a r hout b hb hab => ?_
  have hbl : b ∈ l := search_closed hclosed hac hstarts h hout hab
  rw [hout] at hnodup
  exact disjoint_of_nodup_append hnodup hbl (mem_cons_of_mem _ hb)

end Irokle.Postorder
