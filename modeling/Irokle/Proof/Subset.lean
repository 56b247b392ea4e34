import Irokle.Lib.Outcome
import Irokle.Spec.ClockStore
import Irokle.Spec.Subset

/-!
# Ordering stored ops: what is listed

Over any snapshot, damaged or not, `topological_meta` lists the ids that no hole blocks, unless a read fails.

* `Scanned.mem_spread` — what is blocked: the holes of the set and what depends on one inside the set;
* `topologicalMeta_exact` — the other ids are listed once each, after their dependencies in the set,
  unless they have a cycle among them;
* `subsetEntriesIn_listed` — the entries listed are the stored ones.
-/

namespace Irokle

open Std Relation Outcome List ExtTreeSet

variable {read : SnapshotRead} {ids : BTreeSet OpId} {id dep : OpId} {m : OpMeta} {s s' : SubsetScan}
  {l : List OpId}

/-- An op with a record missing, or with a dependency outside the set that has one missing. -/
def Holed (read : SnapshotRead) (ids : BTreeSet OpId) (id : OpId) : Prop :=
  read.getMeta id = .ok none ∨ read.depResolvable id = .ok false ∨
    ∃ m, read.getMeta id = .ok (some m) ∧ ∃ dep ∈ m.deps, dep ∉ ids ∧ read.depResolvable dep = .ok false

/-- `a` has the dependency `b`, inside the set. -/
def DependsIn (read : SnapshotRead) (ids : BTreeSet OpId) (a b : OpId) : Prop :=
  b ∈ ids ∧ ∃ m, read.getMeta a = .ok (some m) ∧ b ∈ m.deps

/-- An id of the set with a dependency path, inside the set, to a hole. -/
def Blocked (read : SnapshotRead) (ids : BTreeSet OpId) (id : OpId) : Prop :=
  id ∈ ids ∧ ∃ b ∈ ids, Holed read ids b ∧ ReflTransGen (DependsIn read ids) id b

/-- A read of a record of the set, or of a dependency of one, failed with `e`. -/
def FailedRead (read : SnapshotRead) (ids : BTreeSet OpId) (e : Error) : Prop :=
  ∃ id ∈ ids, read.getMeta id = .error e ∨ read.depResolvable id = .error e ∨
    ∃ m, read.getMeta id = .ok (some m) ∧ ∃ dep ∈ m.deps, dep ∉ ids ∧ read.depResolvable dep = .error e

/-- The reads of an op's own records were answered. -/
def Answered (read : SnapshotRead) (id : OpId) : Prop :=
  read.getMeta id = .ok none ∨ ∃ m held, read.getMeta id = .ok (some m) ∧ read.depResolvable id = .ok held

/-- An answered op without a hole has both its records. -/
theorem Answered.whole (h : Answered read id) (hwhole : ¬Holed read ids id) :
    read.depResolvable id = .ok true ∧ ∃ m, read.getMeta id = .ok (some m) := by
  rcases h with h | ⟨m, held, hm, hr⟩
  · exact absurd (Or.inl h) hwhole
  · cases held with
    | false => exact absurd (Or.inr (Or.inl hr)) hwhole
    | true => exact ⟨hr, m, hm⟩

/-- The dependencies inside the set. -/
def depsInSet (ids : BTreeSet OpId) (m : OpMeta) : List OpId := m.deps.toList.filter fun dep => ids.contains dep

theorem mem_depsInSet : dep ∈ depsInSet ids m ↔ dep ∈ m.deps ∧ dep ∈ ids := by
  simp [depsInSet]

theorem depsInSet_nodup : (depsInSet ids m).Nodup := (BTreeSet.nodup_toList _).filter _

/-- What the scan has collected after the ids of `l`. -/
structure Scanned (read : SnapshotRead) (ids : BTreeSet OpId) (l : List OpId) (s : SubsetScan) : Prop where
  answered : ∀ x ∈ l, Answered read x
  blocked : ∀ x, x ∈ s.blocked ↔ x ∈ l ∧ Holed read ids x
  present : ∀ (x : OpId) e, s.present[x]? = some e ↔
    x ∈ l ∧ ¬ Holed read ids x ∧ read.getMeta x = .ok (some e.1) ∧ e.2 = (depsInSet ids e.1).length
  children : ∀ d x, x ∈ SetMap.get s.children d ↔ x ∈ l ∧ read.depResolvable x = .ok true ∧ DependsIn read ids x d

theorem scanned_nil : Scanned read ids [] {} where
  answered := by simp
  blocked := by simp
  present := by simp
  children := by intro d x; simp [SetMap.get]

/-- The loop over the dependencies of an op. -/
theorem depScan_post (read : SnapshotRead) (ids : BTreeSet OpId) (id : OpId)
    (children : BTreeMap OpId (BTreeSet OpId)) (m : OpMeta) :
    Post (m.deps.toList.foldlM (DepScan.step read ids id) { children := children })
      (fun d => d.depsInSet = (depsInSet ids m).length ∧
        d.children = (depsInSet ids m).foldl (fun c dep => SetMap.insert c dep id) children ∧
        (d.dangling = true ↔ ∃ dep ∈ m.deps, dep ∉ ids ∧ read.depResolvable dep = .ok false))
      fun e => ∃ dep ∈ m.deps, dep ∉ ids ∧ read.depResolvable dep = .error e := by
  refine (Post.foldlM (fun done d => d.depsInSet = (done.filter fun dep => ids.contains dep).length ∧
      d.children = (done.filter fun dep => ids.contains dep).foldl
      (fun c dep => SetMap.insert c dep id) children ∧ (d.dangling = true ↔ ∃ dep ∈ done, dep ∉ ids ∧
        read.depResolvable dep = .ok false)) ⟨rfl, rfl, by simp⟩ ?_).mono
    (fun d h => by simpa [depsInSet] using h) fun _ h => h
  rintro done dep rest d hl ⟨hcount, hchildren, hdangling⟩
  unfold DepScan.step
  split
  · rename_i hin
    refine Post.ok ⟨?_, ?_, ?_⟩
    · simp [hcount, hin]
    · simp [hchildren, hin]
    · simp [hdangling, or_and_right, exists_or, hin]
  · rename_i hout
    refine (Post.intro (fun held h => h) fun e he => ?_).bind fun held hheld => Post.pure ⟨?_, ?_, ?_⟩
    · exact ⟨dep, by rw [← mem_toList, hl]; simp, hout, he⟩
    · simp [hcount, hout]
    · simp [hchildren, hout]
    · simp [hdangling, or_and_right, exists_or, hout, hheld]

/-- The children after `id`, when its dependencies inside the set were registered. -/
def Registered (read : SnapshotRead) (ids : BTreeSet OpId) (s : SubsetScan) (id : OpId)
    (children : BTreeMap OpId (BTreeSet OpId)) : Prop :=
  ∀ d x, x ∈ SetMap.get children d ↔
    (x = id ∧ read.depResolvable id = .ok true ∧ DependsIn read ids id d) ∨ x ∈ SetMap.get s.children d

theorem registered_none (h : read.getMeta id = .ok none ∨ read.depResolvable id = .ok false) :
    Registered read ids s id s.children := by
  intro d x
  refine ⟨Or.inr, ?_⟩
  rintro (⟨-, hr, -, m, hm, -⟩ | hx)
  · rcases h with h | h
    · rw [h] at hm; cases hm
    · rw [h] at hr; cases hr
  · exact hx

theorem registered_some (hm : read.getMeta id = .ok (some m)) (hr : read.depResolvable id = .ok true) :
    Registered read ids s id ((depsInSet ids m).foldl (fun c dep => SetMap.insert c dep id) s.children) := by
  intro d x
  rw [SetMap.mem_get_foldl_insert, mem_depsInSet]
  refine or_congr_left ?_
  constructor
  · rintro ⟨rfl, hd, hids⟩
    exact ⟨rfl, hr, hids, m, hm, hd⟩
  · rintro ⟨rfl, -, hids, m', hm', hd⟩
    rw [hm] at hm'
    cases hm'
    exact ⟨rfl, hd, hids⟩

theorem Scanned.children_snoc (S : Scanned read ids l s) {children : BTreeMap OpId (BTreeSet OpId)}
    (hc : Registered read ids s id children) : ∀ d x, x ∈ SetMap.get children d ↔
      x ∈ l ++ [id] ∧ read.depResolvable x = .ok true ∧ DependsIn read ids x d := by
  intro d x
  rw [hc, S.children, mem_append, mem_singleton]
  constructor
  · rintro (⟨rfl, h⟩ | ⟨hx, h⟩)
    · exact ⟨Or.inr rfl, h⟩
    · exact ⟨Or.inl hx, h⟩
  · rintro ⟨hx | rfl, h⟩
    · exact Or.inr ⟨hx, h⟩
    · exact Or.inl ⟨rfl, h⟩

theorem Scanned.answered_snoc (S : Scanned read ids l s) (h : Answered read id) :
    ∀ x ∈ l ++ [id], Answered read x := by
  intro x hx
  rcases mem_append.1 hx with hx | hx
  · exact S.answered x hx
  · exact mem_singleton.1 hx ▸ h

theorem Scanned.block (S : Scanned read ids l s) (hans : Answered read id) (hole : Holed read ids id)
    {children : BTreeMap OpId (BTreeSet OpId)} (hc : Registered read ids s id children) :
    Scanned read ids (l ++ [id]) { s with children := children, blocked := s.blocked.insert id } where
  answered := S.answered_snoc hans
  children := S.children_snoc hc
  blocked := by
    intro x
    rw [mem_insert, S.blocked, Std.compare_eq_iff_eq, mem_append, mem_singleton]
    constructor
    · rintro (rfl | h)
      · exact ⟨Or.inr rfl, hole⟩
      · exact ⟨Or.inl h.1, h.2⟩
    · rintro ⟨hx | rfl, h⟩
      · exact Or.inr ⟨hx, h⟩
      · exact Or.inl rfl
  present := by
    intro x e
    rw [S.present, mem_append, mem_singleton]
    constructor
    · rintro ⟨hx, h⟩
      exact ⟨Or.inl hx, h⟩
    · rintro ⟨hx | rfl, h⟩
      · exact ⟨hx, h⟩
      · exact absurd hole h.1

theorem Scanned.enlist (S : Scanned read ids l s) (hans : Answered read id) (hwhole : ¬ Holed read ids id)
    (hm : read.getMeta id = .ok (some m)) {children : BTreeMap OpId (BTreeSet OpId)}
    (hc : Registered read ids s id children) :
    Scanned read ids (l ++ [id])
      { s with children := children, present := s.present.insert id (m, (depsInSet ids m).length) } where
  answered := S.answered_snoc hans
  children := S.children_snoc hc
  blocked := by
    intro x
    rw [S.blocked, mem_append, mem_singleton]
    constructor
    · rintro ⟨hx, h⟩
      exact ⟨Or.inl hx, h⟩
    · rintro ⟨hx | rfl, h⟩
      · exact ⟨hx, h⟩
      · exact absurd h hwhole
  present := by
    intro x e
    rw [ExtTreeMap.getElem?_insert, mem_append, mem_singleton]
    by_cases hx : id = x
    · subst hx
      simp only [Std.compare_self, if_true, Option.some.injEq, or_true, true_and, hwhole, not_false_eq_true, hm,
        Except.ok.injEq]
      constructor
      · rintro rfl
        exact ⟨rfl, rfl⟩
      · rintro ⟨rfl, h⟩
        exact Prod.ext rfl h.symm
    · simp [hx, Ne.symm hx, S.present]

/-- One id of the scan. -/
theorem Scanned.step (S : Scanned read ids l s) (hid : id ∈ ids) :
    Post (s.step read ids id) (Scanned read ids (l ++ [id])) (FailedRead read ids) := by
  unfold SubsetScan.step
  refine (Post.intro (fun _ h => h) fun e he => ⟨id, hid, Or.inl he⟩).bind fun found hm => ?_
  cases found with
  | none => exact Post.pure (S.block (Or.inl hm) (Or.inl hm) (registered_none (Or.inl hm)))
  | some m =>
    refine (Post.intro (fun _ h => h) fun e he => ⟨id, hid, Or.inr (Or.inl he)⟩).bind fun held hr => ?_
    have hans : Answered read id := Or.inr ⟨m, held, hm, hr⟩
    cases held with
    | false =>
      rw [if_pos rfl]
      exact Post.pure (S.block hans (Or.inr (Or.inl hr)) (registered_none (Or.inr hr)))
    | true =>
      rw [if_neg (by simp)]
      refine ((depScan_post read ids id s.children m).mono (fun _ h => h) fun e he => ?_).bind fun d hd => ?_
      · exact ⟨id, hid, Or.inr (Or.inr ⟨m, hm, he⟩)⟩
      · obtain ⟨hcount, hchildren, hdangling⟩ := hd
        have hreg : Registered read ids s id d.children := hchildren ▸ registered_some hm hr
        have hole : Holed read ids id ↔ d.dangling = true := by
          rw [hdangling]
          simp [Holed, hm, hr]
        split
        · rename_i hd
          exact Post.pure (S.block hans (hole.2 hd) hreg)
        · rename_i hd
          rw [hcount]
          exact Post.pure (S.enlist hans (fun h => hd (hole.1 h)) hm hreg)

theorem subsetScan_post (read : SnapshotRead) (ids : BTreeSet OpId) :
    Post (subsetScan read ids) (Scanned read ids ids.toList) (FailedRead read ids) := by
  refine Post.foldlM (Scanned read ids) scanned_nil fun done id rest s hl S => S.step ?_
  rw [← mem_toList, hl]
  simp

/-! ## Blocked ids -/

/-- **What is blocked once blocking has spread.** -/
theorem Scanned.mem_spread (S : Scanned read ids ids.toList s) : id ∈ s.spread ids ↔ Blocked read ids id := by
  have hchild : ∀ a x, x ∈ (SetMap.get s.children a).toList.filter (fun child => ids.contains child) ↔
      x ∈ ids ∧ read.depResolvable x = .ok true ∧ DependsIn read ids x a := by
    intro a x
    rw [List.mem_filter, mem_toList, S.children, mem_toList]
    simp only [mem_iff_contains]
    tauto
  unfold SubsetScan.spread
  rw [Reach.mem_walk_set (by simp) ids.toList (fun a x hx => mem_toList.2 ((hchild a x).1 hx).1) (by simp)]
  constructor
  · rintro ⟨b, hb, hreach⟩
    obtain ⟨hbids, hole⟩ := (S.blocked b).1 hb
    rw [mem_toList] at hbids
    induction hreach with
    | refl => exact ⟨hbids, b, hbids, hole, .refl⟩
    | @tail a x _ hax ih =>
      obtain ⟨-, b', hb', hole', hpath⟩ := ih
      obtain ⟨hx, -, hdep⟩ := (hchild a x).1 hax
      exact ⟨hx, b', hb', hole', hpath.head hdep⟩
  · rintro ⟨hid, b, hb, hole, hpath⟩
    induction hpath using ReflTransGen.head_induction_on with
    | refl => exact ⟨b, (S.blocked b).2 ⟨mem_toList.2 hb, hole⟩, .refl⟩
    | @head x y hxy _ ih =>
      by_cases hx : Holed read ids x
      · exact ⟨x, (S.blocked x).2 ⟨mem_toList.2 hid, hx⟩, .refl⟩
      · -- the records of `x` are complete, so it is a child of `y`
        have hr := ((S.answered x (mem_toList.2 hid)).whole hx).1
        obtain ⟨a, ha, hreach⟩ := ih hxy.1
        exact ⟨a, ha, hreach.tail ((hchild y x).2 ⟨hid, hr, hxy⟩)⟩

/-! ## The order -/

/-- The ids left once the blocked ones are taken out, with their metadata. -/
structure Unblocked (read : SnapshotRead) (ids : BTreeSet OpId) (s : SubsetScan)
    (present : BTreeMap OpId (OpMeta × ℕ)) : Prop where
  answered : ∀ x ∈ ids, Answered read x
  some_iff : ∀ (x : OpId) e, present[x]? = some e ↔ x ∈ ids ∧ ¬ Blocked read ids x ∧
    read.getMeta x = .ok (some e.1) ∧ e.2 = (depsInSet ids e.1).length
  children : ∀ d x, x ∈ SetMap.get s.children d ↔ x ∈ ids ∧ read.depResolvable x = .ok true ∧
    DependsIn read ids x d

theorem Scanned.unblocked (S : Scanned read ids ids.toList s) :
    Unblocked read ids s (s.present.filter fun id _ => !(s.spread ids).contains id) where
  answered x hx := S.answered x (mem_toList.2 hx)
  some_iff := by
    intro x e
    have hspread : (!(s.spread ids).contains x) = true ↔ ¬ Blocked read ids x := by
      rw [← S.mem_spread, mem_iff_contains, Bool.not_eq_true, Bool.not_eq_true']
    have hhole : ¬ Blocked read ids x → x ∈ ids → ¬ Holed read ids x :=
      fun h hx hole => h ⟨hx, x, hx, hole, .refl⟩
    rw [getElem?_filter_key]
    by_cases hb : Blocked read ids x
    · rw [if_neg (fun h => hspread.1 h hb)]
      simp [hb]
    · rw [if_pos (hspread.2 hb), S.present, mem_toList]
      constructor
      · rintro ⟨hx, -, h⟩
        exact ⟨hx, hb, h⟩
      · rintro ⟨hx, -, h⟩
        exact ⟨hx, hhole hb hx, h⟩
  children := by
    intro d x
    rw [S.children, mem_toList]

variable {present : BTreeMap OpId (OpMeta × ℕ)}

/-- An unblocked id has both records, and its dependencies inside the set are unblocked. -/
theorem Unblocked.resolvable (U : Unblocked read ids s present) (hid : id ∈ ids) (hb : ¬ Blocked read ids id) :
    read.depResolvable id = .ok true ∧ ∃ m, read.getMeta id = .ok (some m) :=
  (U.answered id hid).whole fun h => hb ⟨hid, id, hid, h, .refl⟩

theorem DependsIn.unblocked (h : DependsIn read ids id dep) (hid : id ∈ ids) (hb : ¬ Blocked read ids id) :
    ¬ Blocked read ids dep := by
  rintro ⟨-, b, hbids, hole, hpath⟩
  exact hb ⟨hid, b, hbids, hole, hpath.head h⟩

/-- The graph that is ordered. -/
def Unblocked.nodes (_ : Unblocked read ids s present) : BTreeMap OpId OpMeta := present.map fun _ e => e.1

theorem Unblocked.getElem?_nodes (U : Unblocked read ids s present) :
    U.nodes[id]? = some m ↔ id ∈ ids ∧ ¬ Blocked read ids id ∧ read.getMeta id = .ok (some m) := by
  unfold Unblocked.nodes
  rw [ExtTreeMap.getElem?_map, Option.map_eq_some_iff]
  constructor
  · rintro ⟨e, he, rfl⟩
    obtain ⟨hid, hb, hm, -⟩ := (U.some_iff id e).1 he
    exact ⟨hid, hb, hm⟩
  · rintro ⟨hid, hb, hm⟩
    exact ⟨(m, (depsInSet ids m).length), (U.some_iff id _).2 ⟨hid, hb, hm, rfl⟩, rfl⟩

theorem Unblocked.mem_nodes (U : Unblocked read ids s present) :
    id ∈ U.nodes ↔ id ∈ ids ∧ ¬ Blocked read ids id := by
  rw [ExtTreeMap.mem_iff_isSome_getElem?, Option.isSome_iff_exists]
  constructor
  · rintro ⟨m, hm⟩
    obtain ⟨hid, hb, -⟩ := U.getElem?_nodes.1 hm
    exact ⟨hid, hb⟩
  · rintro ⟨hid, hb⟩
    obtain ⟨-, m, hm⟩ := U.resolvable hid hb
    exact ⟨m, U.getElem?_nodes.2 ⟨hid, hb, hm⟩⟩

/-- What an unblocked id waits for: its dependencies inside the set. -/
theorem Unblocked.mem_preds (U : Unblocked read ids s present) (hid : id ∈ ids) (hb : ¬ Blocked read ids id) :
    dep ∈ KahnQueue.preds s.children U.nodes id ↔ DependsIn read ids id dep := by
  rw [KahnQueue.mem_preds, U.mem_nodes, U.children]
  constructor
  · exact fun h => h.2.2.2
  · exact fun h => ⟨⟨h.1, h.unblocked hid hb⟩, hid, (U.resolvable hid hb).1, h⟩

theorem Unblocked.waiting_nil (U : Unblocked read ids s present) (hid : id ∈ ids) (hb : ¬ Blocked read ids id)
    (hm : read.getMeta id = .ok (some m)) :
    KahnQueue.waiting s.children U.nodes [] id = (depsInSet ids m).length := by
  have hperm : (KahnQueue.preds s.children U.nodes id).Perm (depsInSet ids m) := by
    refine (perm_ext_iff_of_nodup KahnQueue.preds_nodup depsInSet_nodup).2 fun d => ?_
    rw [U.mem_preds hid hb, mem_depsInSet]
    constructor
    · rintro ⟨hd, m', hm', hdep⟩
      rw [hm] at hm'
      cases hm'
      exact ⟨hdep, hd⟩
    · rintro ⟨hdep, hd⟩
      exact ⟨hd, m, hm, hdep⟩
  simpa [KahnQueue.waiting] using hperm.length_eq

/-- The loop starts with the ids that have no dependency in the set. -/
theorem Unblocked.inv (U : Unblocked read ids s present) :
    KahnQueue.Inv s.children U.nodes [] ((present.toList.filter fun e => e.2.2 = 0).map (·.1)) present where
  nodup := nodup_nil
  sub := by simp
  before := by simp
  ready_nodup := (nodup_keys_toList present).sublist (filter_sublist.map _)
  mem_ready := by
    intro x
    simp only [mem_map, List.mem_filter, ExtTreeMap.mem_toList_iff_getElem?_eq_some, Prod.exists,
      not_mem_nil, not_false_eq_true, true_and, decide_eq_true_eq]
    rw [U.mem_nodes]
    constructor
    · rintro ⟨y, m, n, ⟨he, rfl⟩, rfl⟩
      obtain ⟨hid, hb, hm, h0⟩ := (U.some_iff y _).1 he
      refine ⟨⟨hid, hb⟩, fun d hd => ?_⟩
      have := KahnQueue.waiting_eq_zero.1 ((U.waiting_nil hid hb hm).trans h0.symm) d hd
      simp at this
    · rintro ⟨⟨hid, hb⟩, hall⟩
      obtain ⟨-, m, hm⟩ := U.resolvable hid hb
      have h0 : (depsInSet ids m).length = 0 := by
        rw [← U.waiting_nil hid hb hm, KahnQueue.waiting_eq_zero]
        exact fun d hd => (hall d hd).elim
      exact ⟨x, m, 0, ⟨(U.some_iff x _).2 ⟨hid, hb, hm, h0.symm⟩, rfl⟩, rfl⟩
  left := by
    intro x
    rw [if_neg not_mem_nil]
    refine Option.ext fun e => ?_
    rw [U.some_iff, Option.map_eq_some_iff]
    constructor
    · rintro ⟨hid, hb, hm, hn⟩
      exact ⟨e.1, U.getElem?_nodes.2 ⟨hid, hb, hm⟩, by rw [U.waiting_nil hid hb hm, ← hn]⟩
    · rintro ⟨m, hm, rfl⟩
      obtain ⟨hid, hb, hm⟩ := U.getElem?_nodes.1 hm
      exact ⟨hid, hb, hm, U.waiting_nil hid hb hm⟩

/-- The run of the loop, at its end. -/
theorem Scanned.run (S : Scanned read ids ids.toList s) (hscan : subsetScan read ids = .ok s) :
    ∃ (present left : BTreeMap OpId (OpMeta × ℕ)) (U : Unblocked read ids s present) (out : List (OpId × OpMeta)),
      KahnQueue.Inv s.children U.nodes (out.map Prod.fst) [] left ∧ (∀ e ∈ out, U.nodes[e.1]? = some e.2) ∧
      topologicalMeta read ids = if (out.map Prod.fst).length ≠ U.nodes.size then
        .error (.storage "cycle in op graph") else .ok (out.map (·.2)) := by
  have U := S.unblocked
  set present := s.present.filter fun id _ => !(s.spread ids).contains id
  have hsize : U.nodes.size = present.size := ExtTreeMap.size_map
  obtain ⟨⟨left, hinv⟩, hvals⟩ := @KahnQueue.Inv.drain _ _ _ _ _ _ _ _ U.inv (present.size + 1) (by simp [hsize])
  refine ⟨present, left, U, _, by simpa using hinv, hvals, ?_⟩
  rw [length_map, hsize, topologicalMeta, hscan, Outcome.ok_bind]
  dsimp only
  split <;> rfl

/-- What a list of ids in order is: the unblocked ids of the set, each after its dependencies. -/
structure OrderedIn (read : SnapshotRead) (ids : BTreeSet OpId) (order : List OpId) : Prop where
  nodup : order.Nodup
  mem : ∀ id, id ∈ order ↔ id ∈ ids ∧ ¬ Blocked read ids id
  before : ∀ l id r, order = l ++ id :: r → ∀ dep, DependsIn read ids id dep → dep ∈ l

/-- Unblocked ids of the set that depend on one another in a circle. -/
def CycleIn (read : SnapshotRead) (ids : BTreeSet OpId) : Prop :=
  ∃ id, TransGen (fun a b => DependsIn read ids a b ∧ (a ∈ ids ∧ ¬ Blocked read ids a) ∧ b ∈ ids ∧
    ¬ Blocked read ids b) id id

/-- **The order is exact.** Over any snapshot, the ids of the set that no hole blocks are listed once
each, every one after its dependencies in the set; only a failed read or a cycle among them is an error. -/
theorem topologicalMeta_post (read : SnapshotRead) (ids : BTreeSet OpId) :
    Post (topologicalMeta read ids)
      (fun out => ∃ order, order.map read.getMeta = out.map (fun m => .ok (some m)) ∧ OrderedIn read ids order)
      fun e => FailedRead read ids e ∨ e = .storage "cycle in op graph" ∧ CycleIn read ids := by
  have hscan := subsetScan_post read ids
  cases h : subsetScan read ids with
  | error e =>
    rw [topologicalMeta, h]
    exact Or.inl (hscan.of_error h)
  | ok s =>
    obtain ⟨present, left, U, out, hinv, hvals, hrun⟩ := (hscan.of_ok h).run h
    rw [hrun]
    split
    · rename_i hshort
      obtain ⟨x, hcycle⟩ := hinv.cycle hshort
      refine Post.error (Or.inr ⟨rfl, x, TransGen.mono (fun a b hab => ?_) _ _ hcycle⟩)
      have ha := U.mem_nodes.1 hab.2
      exact ⟨(U.mem_preds ha.1 ha.2).1 hab.1, ha, U.mem_nodes.1 (KahnQueue.mem_preds.1 hab.1).1⟩
    · rename_i hfull
      refine Post.ok ⟨out.map Prod.fst, ?_, hinv.nodup, fun id => ?_, fun l id r hlr dep hdep => ?_⟩
      · rw [List.map_map, List.map_map]
        refine map_congr_left fun e he => ?_
        obtain ⟨-, -, hm⟩ := U.getElem?_nodes.1 (hvals e he)
        exact hm
      · rw [(hinv.perm (not_not.1 hfull)).mem_iff, ExtTreeMap.mem_keys, U.mem_nodes]
      · obtain ⟨hid, hb⟩ := U.mem_nodes.1 (hinv.sub id (by rw [hlr]; simp))
        exact hinv.before l id r hlr dep ((U.mem_preds hid hb).2 hdep)

/-- **The entries of an order** are the stored op and metadata of each id it lists, where metadata is stored
under its own id. -/
theorem subsetEntriesIn_listed {entries : List (Op × OpMeta)}
    (hids : ∀ id m, read.getMeta id = .ok (some m) → m.id = id) (h : subsetEntriesIn read ids = .ok entries) :
    OrderedIn read ids (entries.map (·.2.id)) ∧
      ∀ e ∈ entries, read.getOp e.2.id = .ok (some e.1) ∧ read.getMeta e.2.id = .ok (some e.2) := by
  obtain ⟨out, hout, hrun⟩ := bind_eq_ok.1 h
  obtain ⟨order, hmetas, O⟩ := (topologicalMeta_post read ids).of_ok hout
  -- the entries are the metadata listed, each with its op
  have hentries : entries.map (·.2) = out ∧ ∀ e ∈ entries, read.getOp e.2.id = .ok (some e.1) := by
    clear h hout hmetas
    induction out generalizing entries with
    | nil =>
      cases hrun
      simp
    | cons m out ih =>
      simp only [mapM_cons, bind_eq_ok, pure_eq_ok] at hrun
      obtain ⟨e, ⟨found, hop, he⟩, rest, hrest, rfl⟩ := hrun
      cases found with
      | none => simp at he
      | some op =>
        obtain rfl := pure_eq_ok.1 he
        obtain ⟨hmap, hall⟩ := ih hrest
        simpa [hmap, hop] using hall
  obtain ⟨rfl, hops⟩ := hentries
  have horder : entries.map (·.2.id) = order ∧ ∀ e ∈ entries, read.getMeta e.2.id = .ok (some e.2) := by
    clear h hrun hout hops O
    induction entries generalizing order with
    | nil => simpa using hmetas
    | cons e entries ih =>
      cases order with
      | nil => simp at hmetas
      | cons id order =>
        simp only [map_cons, List.cons.injEq] at hmetas
        obtain ⟨hm, hrest⟩ := hmetas
        obtain ⟨hmap, hall⟩ := ih order hrest
        obtain rfl := hids id e.2 hm
        simpa [hmap, hm] using hall
  exact ⟨horder.1 ▸ O, fun e he => ⟨hops e he, horder.2 e he⟩⟩

end Irokle
