import Irokle.Proof.Build

/-!
# The order of an input batch

`topologicalOps` lists each op of its input once, after its dependencies inside the input, and fails
only on a cycle.
-/

namespace Irokle

open Std Outcome List ExtTreeMap

variable {ops out : List Op} {op x : Op} {id : OpId}

/-- `out` lists the ops of the input by id, each after its dependencies. -/
structure Ordered (ops out : List Op) : Prop where
  mem : ∀ op ∈ out, op ∈ ops
  all : ∀ op ∈ ops, ∃ x ∈ out, x.id = op.id
  nodup : (out.map Op.id).Nodup
  before : ∀ l a r, out = l ++ a :: r → ∀ x ∈ out, x.id ∈ a.body.deps → x ∈ l

/-- No op before another has its id. -/
theorem Ordered.fresh {l rest : List Op} (O : Ordered ops (l ++ op :: rest)) : ∀ x ∈ l, x.id ≠ op.id := by
  intro x hx hid
  have hnd := O.nodup
  rw [map_append, nodup_append] at hnd
  exact hnd.2.2 _ (mem_map_of_mem hx) _ (mem_map_of_mem mem_cons_self) hid

/-- No op before another depends on it. -/
theorem Ordered.not_dep {l rest : List Op} (O : Ordered ops (l ++ op :: rest)) :
    ∀ x ∈ l, op.id ∉ x.body.deps := by
  intro x hx hdep
  obtain ⟨l₁, l₂, rfl⟩ := append_of_mem hx
  have hbefore := O.before l₁ x (l₂ ++ op :: rest) (by simp) op (by simp) hdep
  exact O.fresh op (by simp [hbefore]) rfl

theorem getElem?_byId_foldl {m : BTreeMap OpId Op} :
    (ops.foldl (fun m op => m.insert op.id op) m)[id]? = some x →
      (x ∈ ops ∧ x.id = id) ∨ m[id]? = some x ∧ ∀ op ∈ ops, op.id ≠ id := by
  induction ops generalizing m with
  | nil => intro h; exact Or.inr ⟨h, by simp⟩
  | cons op ops ih =>
    intro h
    rw [foldl_cons] at h
    rcases ih h with ⟨hx, hid⟩ | ⟨hm, hno⟩
    · exact Or.inl ⟨mem_cons_of_mem _ hx, hid⟩
    · rw [ExtTreeMap.getElem?_insert] at hm
      split at hm
      · rename_i heq
        cases hm
        exact Or.inl ⟨mem_cons_self, by simpa using heq⟩
      · rename_i hne
        refine Or.inr ⟨hm, fun y hy => ?_⟩
        rcases mem_cons.1 hy with rfl | hy
        · simpa using hne
        · exact hno y hy

theorem mem_byId_foldl {m : BTreeMap OpId Op} :
    id ∈ ops.foldl (fun m op => m.insert op.id op) m ↔ (∃ op ∈ ops, op.id = id) ∨ id ∈ m := by
  induction ops generalizing m with
  | nil => simp
  | cons op ops ih =>
    rw [foldl_cons, ih]
    simp [or_assoc, or_left_comm]

theorem mem_byId : id ∈ byId ops ↔ ∃ op ∈ ops, op.id = id := by
  unfold byId
  rw [mem_byId_foldl]
  simp

theorem getElem?_byId (h : (byId ops)[id]? = some x) : x ∈ ops ∧ x.id = id := by
  rcases getElem?_byId_foldl h with h | ⟨h, -⟩
  · exact h
  · simp at h

/-- Looking up the ids of a batch gives the ops they name. -/
theorem mapM_lookup {m : BTreeMap OpId Op} (hm : ∀ (id : OpId) op, m[id]? = some op → op.id = id)
    {f : OpId → Result Op} (hf : ∀ (id : OpId) op, m[id]? = some op → f id = .ok op) {ids : List OpId}
    (hids : ∀ id ∈ ids, id ∈ m) :
    ∃ out, ids.mapM f = .ok out ∧ out.map Op.id = ids ∧ ∀ op ∈ out, m[op.id]? = some op := by
  induction ids with
  | nil => exact ⟨[], rfl, rfl, by simp⟩
  | cons id ids ih =>
    obtain ⟨out, hout, hmap, hget⟩ := ih fun i hi => hids i (by simp [hi])
    obtain ⟨op, hop⟩ : ∃ op, m[id]? = some op := by
      have := hids id (by simp)
      rwa [mem_iff_isSome_getElem?, Option.isSome_iff_exists] at this
    have hid := hm id op hop
    refine ⟨op :: out, ?_, by simp [hmap, hid], ?_⟩
    · rw [mapM_cons, hf id op hop, ok_bind, hout, ok_bind]
      rfl
    · rintro x hx
      rcases mem_cons.1 hx with rfl | hx
      · rw [hid, hop]
      · exact hget x hx

/-- The dependencies the order is computed from. -/
def batchDeps (ops : List Op) : BTreeMap OpId (BTreeSet OpId) := (byId ops).map fun _ op => op.body.deps

theorem mem_batchDeps : id ∈ batchDeps ops ↔ id ∈ byId ops := by simp [batchDeps]

theorem mem_inside_batchDeps {d : OpId} (h : (byId ops)[x.id]? = some x) :
    d ∈ Kahn.inside (batchDeps ops) x.id ↔ d ∈ x.body.deps ∧ d ∈ byId ops := by
  rw [Kahn.mem_inside, mem_batchDeps]
  simp [batchDeps, ExtTreeMap.getElem?_map, h]

/-- The op of an id of the order. -/
def inputOp (m : BTreeMap OpId Op) (id : OpId) : Result Op :=
  match m[id]? with
  | some op => .ok op
  | none => .error (.storage ("missing input op " ++ id.display))

theorem topologicalOps_out (ops : List Op) :
    ∃ out, (out.map Op.id = Kahn.order (inputGeneration (byId ops)) (batchDeps ops)) ∧
      (∀ op ∈ out, (byId ops)[op.id]? = some op) ∧
    topologicalOps ops = if out.length ≠ (byId ops).size then .error (.storage "cycle in input op batch")
      else .ok out := by
  have hmem : ∀ id ∈ Kahn.order (inputGeneration (byId ops)) (batchDeps ops), id ∈ byId ops := fun id hid =>
    mem_batchDeps.1 (Kahn.mem_of_mem_order hid)
  unfold topologicalOps
  dsimp only
  obtain ⟨out, hrun, hmap, hget⟩ := mapM_lookup (f := inputOp (byId ops)) (fun id op h => (getElem?_byId h).2)
    (fun id op h => by simp [inputOp, h]) hmem
  refine ⟨out, hmap, hget, ?_⟩
  refine (congrArg (· >>= _) hrun).trans ?_
  rw [ok_bind, refuseIf]
  split <;> rfl

/-- **The order lists each op of the input once, after its dependencies.** -/
theorem topologicalOps_ordered (h : topologicalOps ops = .ok out) : Ordered ops out := by
  obtain ⟨out', hmap, hget, heq⟩ := topologicalOps_out ops
  rw [heq] at h
  split at h
  · cases h
  · rename_i hlen
    cases h
    have hnodup : (out.map Op.id).Nodup := hmap ▸ Kahn.order_nodup
    have hinj : ∀ x ∈ out, ∀ y ∈ out, x.id = y.id → x = y := inj_on_of_nodup_map hnodup
    refine ⟨fun op hop => (getElem?_byId (hget op hop)).1, fun op hop => ?_, hnodup,
      fun l a r hsplit x hx hdep => ?_⟩
    · -- as many distinct ids are listed as the input has
      have hsub : out.map Op.id ⊆ (byId ops).keys := by
        intro id hid
        obtain ⟨x, hx, rfl⟩ := List.mem_map.1 hid
        rw [ExtTreeMap.mem_keys, mem_iff_isSome_getElem?, hget x hx]
        rfl
      have hperm := hnodup.subperm hsub
      have hin : op.id ∈ out.map Op.id := by
        refine (hperm.perm_of_length_le ?_).mem_iff.2 ?_
        · rw [length_keys, length_map]
          omega
        · rw [ExtTreeMap.mem_keys]
          exact mem_byId.2 ⟨op, hop, rfl⟩
      obtain ⟨x, hx, hid⟩ := List.mem_map.1 hin
      exact ⟨x, hx, hid⟩
    · have ha : a ∈ out := by simp [hsplit]
      have horder : Kahn.order (inputGeneration (byId ops)) (batchDeps ops) =
          l.map Op.id ++ a.id :: r.map Op.id := by
        rw [← hmap, hsplit]
        simp
      have hin : x.id ∈ Kahn.inside (batchDeps ops) a.id := by
        refine (mem_inside_batchDeps (hget a ha)).2 ⟨hdep, ?_⟩
        exact mem_byId.2 ⟨x, (getElem?_byId (hget x hx)).1, rfl⟩
      obtain ⟨y, hy, hid⟩ := List.mem_map.1 (Kahn.order_before horder _ hin)
      rwa [← hinj y (by simp [hsplit, hy]) x hx hid]

/-- Without a cycle the order exists. -/
theorem topologicalOps_ok
    (hrank : ∀ x ∈ ops, ∀ y ∈ ops, x.id ∈ y.body.deps → x.body.generation < y.body.generation) :
    ∃ out, topologicalOps ops = .ok out := by
  obtain ⟨out, hmap, hget, heq⟩ := topologicalOps_out ops
  refine ⟨out, ?_⟩
  rw [heq, if_neg]
  rw [not_not]
  have hall : ∀ id ∈ (byId ops).keys, id ∈ out.map Op.id := by
    intro id hid
    rw [hmap]
    refine Kahn.mem_order_of_rank (inputGeneration (byId ops)) ?_ (mem_batchDeps.2 (by simpa using hid))
    intro a ha d hd
    obtain ⟨x, hx⟩ : ∃ x, (byId ops)[a]? = some x := by
      have := mem_batchDeps.1 ha
      rwa [mem_iff_isSome_getElem?, Option.isSome_iff_exists] at this
    obtain ⟨hxmem, rfl⟩ := getElem?_byId hx
    obtain ⟨hdep, hdin⟩ := (mem_inside_batchDeps hx).1 hd
    obtain ⟨y, hy⟩ : ∃ y, (byId ops)[d]? = some y := by
      rwa [mem_iff_isSome_getElem?, Option.isSome_iff_exists] at hdin
    obtain ⟨hymem, rfl⟩ := getElem?_byId hy
    simp only [inputGeneration, hx, hy, Option.map_some, Option.getD_some]
    exact hrank y hymem x hxmem hdep
  have hnodup : (out.map Op.id).Nodup := hmap ▸ Kahn.order_nodup
  have hkeys : (byId ops).keys.Nodup := nodup_keys
  have hsub : out.map Op.id ⊆ (byId ops).keys := by
    intro id hid
    obtain ⟨x, hx, rfl⟩ := List.mem_map.1 hid
    rw [ExtTreeMap.mem_keys, mem_iff_isSome_getElem?, hget x hx]
    rfl
  have h1 := (hnodup.subperm hsub).length_le
  have h2 := (hkeys.subperm hall).length_le
  rw [length_map, length_keys] at h1 h2
  omega

end Irokle
