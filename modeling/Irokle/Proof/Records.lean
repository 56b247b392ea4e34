import Irokle.Proof.History

/-!
# Stored history

`RecordsOK` says that every index of a store describes the ops it holds, and that the ops of each
topic form a branch. `Records.append` is what admitting one op does to the records;
`RecordsOK.append` is the step every writer of the history is reduced to, and
`RecordsOK.resetTopic` says that a reset forgets one topic and nothing else.
-/

namespace Irokle

open Std Causal ExtTreeMap ExtTreeSet

/-- The admitted ops of a topic. -/
def Records.admitted (r : Records) (t : TopicId) : Set Op :=
  {op | r.ops[op.id]? = some op ∧ op.body.topicId = t}

/-- `m` is the metadata of `op`, with the exact clock of its ancestry. -/
structure MetaOK (E : Env) (op : Op) (m : OpMeta) : Prop where
  eq : m = metaOf op m.observedClock
  positive : m.observedClock.Positive
  exact : opShape.Exact {x | E.Valid x} op m.observedClock.get

/-- Every index describes the stored ops, and the ops of each topic form a branch. -/
structure RecordsOK (E : Env) (r : Records) : Prop where
  opId : ∀ (id : OpId) op, r.ops[id]? = some op → op.id = id
  hasMeta : ∀ (id : OpId) op, r.ops[id]? = some op → ∃ m, r.metas[id]? = some m ∧ MetaOK E op m
  hasOp : ∀ id : OpId, r.ops[id]? = none → r.metas[id]? = none
  topicOps : ∀ t id, id ∈ r.listOpIds t ↔ ∃ op ∈ r.admitted t, op.id = id
  children : ∀ d c, c ∈ r.childrenOf d ↔ ∃ op : Op, r.ops[op.id]? = some op ∧ op.id = c ∧ d ∈ op.body.deps
  childKeys : SetMap.NoEmpty r.children
  slots : ∀ (t : TopicId) (a : ActorId) (s : ℕ) id, r.actorBySeq[(t, a, s)]? = some id ↔
    ∃ op ∈ r.admitted t, op.id = id ∧ op.body.actorId = a ∧ op.body.actorSeq = s
  tips : ∀ (t : TopicId) (a : ActorId) s id, r.actorTip[(t, a)]? = some (s, id) ↔
    (∃ op ∈ r.admitted t, op.id = id ∧ op.body.actorId = a ∧ op.body.actorSeq = s) ∧
      ∀ op ∈ r.admitted t, op.body.actorId = a → op.body.actorSeq ≤ s
  clock : ∀ t a s, 1 ≤ s → (s ≤ (r.clockOf t).get a ↔
    ∃ op ∈ r.admitted t, op.body.actorId = a ∧ op.body.actorSeq = s)
  clockPos : ∀ t, (r.clockOf t).Positive
  heads : ∀ t id, id ∈ r.headsOf t ↔ ∃ op ∈ opShape.heads (r.admitted t), op.id = id
  maxGeneration : ∀ t, (∀ op ∈ r.admitted t, op.body.generation ≤ r.maxGenerationOf t) ∧
    (r.maxGenerationOf t = 0 ∨ ∃ op ∈ r.admitted t, op.body.generation = r.maxGenerationOf t)
  state : ∀ t st, r.topicState t = some st →
    ∃ g γ, Branch E g γ (r.admitted t) ∧ StateOf (r.admitted t) g γ st
  noState : ∀ t, r.topicState t = none → r.admitted t = ∅
  fingerprint : ∀ t, r.topicFingerprintOf E t = E.topicFingerprintFor (r.headsOf t) (r.clockOf t)
  stamped : ∀ t st, r.topicState t = some st → ∃ d, r.topicFingerprint[t]? = some d

/-- What admitting one op does to the records, `st` being the state after it. -/
def Records.append (E : Env) (r : Records) (op : Op) (m : OpMeta) (st : TopicState) : Records :=
  let t := op.body.topicId
  let heads := (r.headsOf t \ op.body.deps).insert op.id
  let clock := (r.clockOf t).observe op.body.actorId op.body.actorSeq
  { r.writeEntry op m with
    ops := r.ops.insert op.id op
    metas := r.metas.insert op.id m
    actorClock := r.actorClock.insert t clock
    heads := r.heads.insert t heads
    topicFingerprint := r.topicFingerprint.insert t (E.topicFingerprintFor heads clock)
    topics := r.topics.insert t st }

variable {E : Env} {r : Records} {op x y g : Op} {m : OpMeta} {γ : TopicGenesis} {t t' : TopicId}
  {id : OpId} {st : TopicState} {clk : ActorClock}

theorem recordsOK_empty : RecordsOK E {} where
  opId := by simp
  hasMeta := by simp
  hasOp := by simp
  topicOps := by simp [Records.listOpIds, Records.admitted]
  children := by simp [Records.childrenOf]
  childKeys := SetMap.NoEmpty.empty
  slots := by simp [Records.admitted]
  tips := by simp [Records.admitted]
  clock t a s hs := by simp [Records.clockOf, Records.admitted]; omega
  clockPos t := by simpa [Records.clockOf] using ActorClock.Positive.empty
  heads := by simp [Records.headsOf, Shape.heads, Records.admitted]
  maxGeneration := by simp [Records.maxGenerationOf, Records.admitted]
  state := by simp [Records.topicState]
  noState := by simp [Records.admitted]
  fingerprint t := by simp [Records.topicFingerprintOf]
  stamped := by simp [Records.topicState]

/-- The genesis of a topic's branch names the topic. -/
theorem Branch.root_topic (B : Branch E g γ (r.admitted t)) : g.body.topicId = t := B.root.2

namespace RecordsOK

variable (R : RecordsOK E r)

include R

theorem mem_admitted (h : r.ops[id]? = some op) : op ∈ r.admitted op.body.topicId :=
  ⟨by rw [R.opId id op h, h], rfl⟩

theorem contains_meta : r.metas.contains id = r.ops.contains id := by
  cases h : r.ops[id]? with
  | none => simp [contains_eq_isSome_getElem?, h, R.hasOp id h]
  | some op =>
    obtain ⟨m, hm, -⟩ := R.hasMeta id op h
    simp [contains_eq_isSome_getElem?, h, hm]

theorem depResolvable_iff : r.depResolvable id = true ↔ ∃ op, r.ops[id]? = some op := by
  unfold Records.depResolvable
  rw [R.contains_meta, Bool.and_self, contains_eq_isSome_getElem?, Option.isSome_iff_exists]

theorem meta_spec (h : r.metas[id]? = some m) : ∃ op, r.ops[id]? = some op ∧ op.id = id ∧ MetaOK E op m := by
  cases hop : r.ops[id]? with
  | none => simp [R.hasOp id hop] at h
  | some op =>
    obtain ⟨m', hm', hok⟩ := R.hasMeta id op hop
    rw [h] at hm'
    cases hm'
    exact ⟨op, rfl, R.opId id op hop, hok⟩

theorem finite (t : TopicId) : (r.admitted t).Finite := by
  refine Set.Finite.of_injOn (f := Op.id) (t := {id | id ∈ (r.listOpIds t).toList}) ?_ ?_ (List.finite_toSet _)
  · intro op hop
    simpa using (R.topicOps t op.id).2 ⟨op, hop, rfl⟩
  · intro x hx y hy h
    have := hx.1
    rw [h, hy.1] at this
    exact (Option.some.inj this).symm

theorem closed (t : TopicId) : opShape.Closed (r.admitted t) := by
  cases h : r.topicState t with
  | none =>
    rw [R.noState t h]
    exact fun y hy => absurd hy (Set.notMem_empty y)
  | some st =>
    obtain ⟨g, γ, B, -⟩ := R.state t st h
    exact B.closed

/-- Every held op belongs to the branch of its topic. -/
theorem branch_of_mem (h : op ∈ r.admitted t) :
    ∃ g γ st, r.topicState t = some st ∧ Branch E g γ (r.admitted t) := by
  cases hst : r.topicState t with
  | none =>
    rw [R.noState t hst] at h
    exact h.elim
  | some st =>
    obtain ⟨g, γ, B, -⟩ := R.state t st hst
    exact ⟨g, γ, st, rfl, B⟩

theorem valid (h : r.ops[id]? = some op) : E.Valid op := by
  obtain ⟨g, γ, st, -, B⟩ := R.branch_of_mem (R.mem_admitted h)
  exact B.valid (R.mem_admitted h)

/-- The op held under the id of a valid op is that op. -/
theorem eq_of_valid (h : r.ops[op.id]? = some x) (hop : E.Valid op) : x = op :=
  (R.valid h).eq_of_id hop (R.opId _ _ h)

theorem chained (t : TopicId) : opShape.Chained (r.admitted t) := by
  cases h : r.topicState t with
  | none =>
    rw [R.noState t h]
    exact fun y hy => absurd hy (Set.notMem_empty y)
  | some st =>
    obtain ⟨g, γ, B, -⟩ := R.state t st h
    exact B.chained

end RecordsOK

/-! ## Appending one op -/

section Append

theorem mem_admitted_append (hnew : r.ops[op.id]? = none) :
    x ∈ (r.append E op m st).admitted t ↔ x = op ∧ op.body.topicId = t ∨ x ∈ r.admitted t := by
  simp only [Records.admitted, Records.append, Set.mem_ofPred_eq, getElem?_insert]
  by_cases hid : op.id = x.id
  · rw [← hid, hnew]
    simp only [Std.compare_self, if_true, reduceCtorEq, false_and, or_false, Option.some.injEq]
    constructor
    · rintro ⟨rfl, h⟩
      exact ⟨rfl, h⟩
    · rintro ⟨rfl, h⟩
      exact ⟨rfl, h⟩
  · have hne : x ≠ op := by
      rintro rfl
      exact hid rfl
    simp [hid, hne]

theorem admitted_append_self (hnew : r.ops[op.id]? = none) :
    (r.append E op m st).admitted op.body.topicId = insert op (r.admitted op.body.topicId) := by
  ext x
  simp [mem_admitted_append hnew]

theorem admitted_append_other (hnew : r.ops[op.id]? = none) (ht : op.body.topicId ≠ t) :
    (r.append E op m st).admitted t = r.admitted t := by
  ext x
  simp [mem_admitted_append hnew, ht]

theorem headsOf_append : (r.append E op m st).headsOf t =
    if op.body.topicId = t then (r.headsOf t \ op.body.deps).insert op.id else r.headsOf t := by
  unfold Records.headsOf SetMap.get Records.append
  simp only [getElem?_insert, Std.compare_eq_iff_eq]
  split
  · rename_i h
    subst h
    rfl
  · rfl

theorem clockOf_append : (r.append E op m st).clockOf t =
    if op.body.topicId = t then (r.clockOf t).observe op.body.actorId op.body.actorSeq else r.clockOf t := by
  unfold Records.clockOf Records.append
  simp only [getElem?_insert, Std.compare_eq_iff_eq]
  split
  · rename_i h
    subst h
    rfl
  · rfl

theorem topicState_append : (r.append E op m st).topicState t =
    if op.body.topicId = t then some { st with heads := (r.append E op m st).headsOf t } else r.topicState t := by
  unfold Records.topicState
  rw [headsOf_append]
  simp only [Records.append, getElem?_insert, Std.compare_eq_iff_eq]
  split <;> simp

theorem topicFingerprintOf_append : (r.append E op m st).topicFingerprintOf E t =
    if op.body.topicId = t then
      E.topicFingerprintFor ((r.append E op m st).headsOf t) ((r.append E op m st).clockOf t)
    else r.topicFingerprintOf E t := by
  unfold Records.topicFingerprintOf
  rw [headsOf_append, clockOf_append]
  simp only [Records.append, getElem?_insert, Std.compare_eq_iff_eq]
  split
  · rename_i h
    subst h
    rfl
  · rfl

theorem maxGenerationOf_append : (r.append E op (metaOf op clk) st).maxGenerationOf t =
    if op.body.topicId = t then max (r.maxGenerationOf t) op.body.generation else r.maxGenerationOf t := by
  unfold Records.maxGenerationOf Records.append Records.writeEntry
  simp only [metaOf, getElem?_insert, Std.compare_eq_iff_eq]
  split
  · rename_i h
    subst h
    rfl
  · rfl

theorem mem_listOpIds_append : id ∈ (r.append E op (metaOf op clk) st).listOpIds t ↔
    op.body.topicId = t ∧ op.id = id ∨ id ∈ r.listOpIds t := by
  unfold Records.listOpIds Records.append Records.writeEntry
  simp [metaOf]

theorem mem_childrenOf_append {d c : OpId} : c ∈ (r.append E op (metaOf op clk) st).childrenOf d ↔
    op.id = c ∧ d ∈ op.body.deps ∨ c ∈ r.childrenOf d := by
  unfold Records.childrenOf Records.append Records.writeEntry
  simp [metaOf, SetMap.mem_get_foldl_insert]

/-- An op not held yet that extends its topic's branch, with its clock and the state after it. -/
structure Appends (E : Env) (r : Records) (op : Op) (clk : ActorClock) (st : TopicState) : Prop where
  new : r.ops[op.id]? = none
  metaOK : MetaOK E op (metaOf op clk)
  branch : ∃ g γ, Branch E g γ (insert op (r.admitted op.body.topicId)) ∧
    StateOf (insert op (r.admitted op.body.topicId)) g γ st

variable (R : RecordsOK E r) (A : Appends E r op clk st)

include A in
theorem Appends.not_mem : op ∉ r.admitted t := by
  rintro ⟨h, -⟩
  rw [A.new] at h
  cases h

include R A

/-- Nothing held depends on the new op. -/
theorem Appends.fresh (hx : r.ops[x.id]? = some x) : op.id ∉ x.body.deps := by
  intro hdep
  obtain ⟨y, hy, hid⟩ := R.closed x.body.topicId x ⟨hx, rfl⟩ op.id hdep
  have hy' : r.ops[op.id]? = some y := by
    have := hy.1
    rwa [show y.id = op.id from hid] at this
  rw [A.new] at hy'
  cases hy'

/-- The new op is the highest of its actor. -/
theorem Appends.lt_seq (hx : x ∈ r.admitted op.body.topicId) (hactor : x.body.actorId = op.body.actorId) :
    x.body.actorSeq < op.body.actorSeq := by
  obtain ⟨g, γ, B, -⟩ := A.branch
  by_contra hge
  have slot : ∀ w ∈ r.admitted op.body.topicId, w.body.actorId = op.body.actorId →
      w.body.actorSeq ≠ op.body.actorSeq := by
    intro w hw ha hs
    obtain rfl := B.slots w (Set.mem_insert_of_mem op hw) op (Set.mem_insert op _) ha hs
    exact A.not_mem hw
  -- the chain below `x` would hold the op's own position
  rcases Nat.lt_or_ge op.body.actorSeq x.body.actorSeq with hlt | hle
  · obtain ⟨w, hw, ha, hs⟩ := (R.chained _).down (B.links op (Set.mem_insert op _)).one_le_seq hx hlt
    exact slot w hw.mem_left (ha.trans hactor) hs
  · exact slot x hx hactor (by omega)

theorem Appends.mem_heads_iff : x ∈ opShape.heads (insert op (r.admitted op.body.topicId)) ↔
    x = op ∨ x ∈ opShape.heads (r.admitted op.body.topicId) ∧ x.id ∉ op.body.deps := by
  obtain ⟨g, γ, B, -⟩ := A.branch
  constructor
  · rintro ⟨rfl | hmem, hno⟩
    · exact Or.inl rfl
    · exact Or.inr ⟨⟨hmem, fun y hy => hno y (Set.mem_insert_of_mem op hy)⟩, hno op (Set.mem_insert op _)⟩
  · rintro (rfl | ⟨⟨hmem, hno⟩, hdep⟩)
    · refine ⟨Set.mem_insert x _, ?_⟩
      rintro y (rfl | hy) hdep
      · exact absurd (B.generation_lt ⟨Set.mem_insert y _, Set.mem_insert y _, hdep⟩) (lt_irrefl _)
      · exact A.fresh R hy.1 hdep
    · refine ⟨Set.mem_insert_of_mem op hmem, ?_⟩
      rintro y (rfl | hy)
      · exact hdep
      · exact hno y hy

theorem RecordsOK.actorTip_append : (r.append E op (metaOf op clk) st).actorTip =
    r.actorTip.insert (op.body.topicId, op.body.actorId) (op.body.actorSeq, op.id) := by
  simp only [Records.append, Records.writeEntry, metaOf]
  cases h : r.actorTip[(op.body.topicId, op.body.actorId)]? with
  | none => rfl
  | some tip =>
    obtain ⟨⟨x, hx, -, ha, hs⟩, -⟩ := (R.tips _ _ tip.1 tip.2).1 h
    have hlt : tip.1 < op.body.actorSeq := hs ▸ A.lt_seq R hx ha
    simp only [hlt, if_true]

theorem RecordsOK.append_tips {a : ActorId} {s : ℕ} :
    (r.append E op (metaOf op clk) st).actorTip[(t, a)]? = some (s, id) ↔
      (∃ x ∈ (r.append E op (metaOf op clk) st).admitted t, x.id = id ∧ x.body.actorId = a ∧
        x.body.actorSeq = s) ∧
        ∀ x ∈ (r.append E op (metaOf op clk) st).admitted t, x.body.actorId = a → x.body.actorSeq ≤ s := by
  rw [R.actorTip_append A, getElem?_insert]
  simp only [mem_admitted_append A.new, Std.compare_eq_iff_eq, Prod.mk.injEq]
  by_cases hkey : op.body.topicId = t ∧ op.body.actorId = a
  · obtain ⟨rfl, rfl⟩ := hkey
    simp only [and_self, if_true, Option.some.injEq, Prod.mk.injEq, and_true]
    constructor
    · rintro ⟨rfl, rfl⟩
      refine ⟨⟨op, Or.inl rfl, rfl, rfl, rfl⟩, ?_⟩
      rintro x (rfl | hx) ha
      · exact le_rfl
      · exact (A.lt_seq R hx ha).le
    · rintro ⟨⟨x, rfl | hx, rfl, ha, rfl⟩, hmax⟩
      · exact ⟨rfl, rfl⟩
      · have h1 := A.lt_seq R hx ha
        have h2 := hmax op (Or.inl rfl) rfl
        omega
  · rw [if_neg hkey, R.tips]
    constructor
    · rintro ⟨⟨x, hx, hrest⟩, hmax⟩
      refine ⟨⟨x, Or.inr hx, hrest⟩, ?_⟩
      rintro y (⟨rfl, ht⟩ | hy) ha
      · exact absurd ⟨ht, ha⟩ hkey
      · exact hmax y hy ha
    · rintro ⟨⟨x, ⟨rfl, ht⟩ | hx, hrest⟩, hmax⟩
      · exact absurd ⟨ht, hrest.2.1⟩ hkey
      · exact ⟨⟨x, hx, hrest⟩, fun y hy => hmax y (Or.inr hy)⟩

theorem RecordsOK.append_slots {a : ActorId} {s : ℕ} :
    (r.append E op (metaOf op clk) st).actorBySeq[(t, a, s)]? = some id ↔
      ∃ x ∈ (r.append E op (metaOf op clk) st).admitted t,
        x.id = id ∧ x.body.actorId = a ∧ x.body.actorSeq = s := by
  simp only [mem_admitted_append A.new]
  simp only [Records.append, Records.writeEntry, metaOf, getElem?_insert, Std.compare_eq_iff_eq,
    Prod.mk.injEq]
  by_cases hkey : op.body.topicId = t ∧ op.body.actorId = a ∧ op.body.actorSeq = s
  · obtain ⟨rfl, rfl, rfl⟩ := hkey
    simp only [and_self, if_true, Option.some.injEq, and_true]
    constructor
    · rintro rfl
      exact ⟨op, Or.inl rfl, rfl, rfl, rfl⟩
    · rintro ⟨x, rfl | hx, rfl, ha, hs⟩
      · rfl
      · exact absurd hs (A.lt_seq R hx ha).ne
  · rw [if_neg hkey, R.slots]
    constructor
    · rintro ⟨x, hx, hrest⟩
      exact ⟨x, Or.inr hx, hrest⟩
    · rintro ⟨x, ⟨rfl, ht⟩ | hx, hrest⟩
      · exact absurd ⟨ht, hrest.2⟩ hkey
      · exact ⟨x, hx, hrest⟩

/-- **Admitting a fitting op keeps every index exact.** -/
theorem RecordsOK.append : RecordsOK E (r.append E op (metaOf op clk) st) where
  opId id x h := by
    simp only [Records.append, getElem?_insert, Std.compare_eq_iff_eq] at h
    split at h
    · rename_i hid
      cases h
      exact hid
    · exact R.opId id x h
  hasMeta id x h := by
    simp only [Records.append, getElem?_insert, Std.compare_eq_iff_eq] at h ⊢
    split at h
    · cases h
      exact ⟨_, if_pos ‹_›, A.metaOK⟩
    · rw [if_neg ‹_›]
      exact R.hasMeta id x h
  hasOp id h := by
    simp only [Records.append, getElem?_insert, Std.compare_eq_iff_eq] at h ⊢
    split at h
    · cases h
    · rw [if_neg ‹_›]
      exact R.hasOp id h
  topicOps t id := by
    simp only [mem_listOpIds_append, mem_admitted_append A.new, R.topicOps]
    constructor
    · rintro (⟨ht, rfl⟩ | ⟨x, hx, hid⟩)
      · exact ⟨op, Or.inl ⟨rfl, ht⟩, rfl⟩
      · exact ⟨x, Or.inr hx, hid⟩
    · rintro ⟨x, ⟨rfl, ht⟩ | hx, hid⟩
      · exact Or.inl ⟨ht, hid⟩
      · exact Or.inr ⟨x, hx, hid⟩
  children d c := by
    rw [mem_childrenOf_append, R.children]
    constructor
    · rintro (⟨rfl, hd⟩ | ⟨x, hx, hid, hd⟩)
      · exact ⟨op, ((mem_admitted_append A.new).2 (Or.inl ⟨rfl, rfl⟩)).1, rfl, hd⟩
      · exact ⟨x, ((mem_admitted_append A.new).2 (Or.inr ⟨hx, rfl⟩)).1, hid, hd⟩
    · rintro ⟨x, hx, hid, hd⟩
      rcases (mem_admitted_append A.new).1 ⟨hx, rfl⟩ with ⟨rfl, -⟩ | hx
      · exact Or.inl ⟨hid, hd⟩
      · exact Or.inr ⟨x, hx.1, hid, hd⟩
  childKeys := R.childKeys.foldl_insert
  slots t a s id := R.append_slots A
  tips t a s id := R.append_tips A
  clock t a s hs := by
    rw [clockOf_append]
    simp only [mem_admitted_append A.new]
    split
    · rename_i ht
      subst ht
      rw [ActorClock.le_get_observe, R.clock _ a s hs]
      constructor
      · rintro (⟨x, hx, hrest⟩ | ⟨rfl, hle⟩)
        · exact ⟨x, Or.inr hx, hrest⟩
        · obtain ⟨g, γ, B, -⟩ := A.branch
          rcases Nat.lt_or_ge s op.body.actorSeq with hlt | hge
          · obtain ⟨w, hw, ha, hws⟩ := B.chained.down hs (Set.mem_insert op _) hlt
            exact ⟨w, (Set.mem_insert_iff.1 hw.mem_left).imp (⟨·, rfl⟩) id, ha, hws⟩
          · exact ⟨op, Or.inl ⟨rfl, rfl⟩, rfl, by omega⟩
      · rintro ⟨x, ⟨rfl, -⟩ | hx, ha, hs⟩
        · exact Or.inr ⟨ha, hs.ge⟩
        · exact Or.inl ⟨x, hx, ha, hs⟩
    · rename_i ht
      simp only [ht, and_false, false_or]
      exact R.clock t a s hs
  clockPos t := by
    rw [clockOf_append]
    split
    · obtain ⟨g, γ, B, -⟩ := A.branch
      exact (R.clockPos t).observe (B.links op (Set.mem_insert op _)).one_le_seq
    · exact R.clockPos t
  heads t id := by
    rw [headsOf_append]
    split
    · rename_i ht
      subst ht
      rw [admitted_append_self A.new]
      simp only [A.mem_heads_iff R, ExtTreeSet.mem_insert, Std.compare_eq_iff_eq,
        ExtTreeSet.mem_diff_iff, R.heads]
      constructor
      · rintro (rfl | ⟨⟨x, hx, rfl⟩, hdep⟩)
        · exact ⟨op, Or.inl rfl, rfl⟩
        · exact ⟨x, Or.inr ⟨hx, hdep⟩, rfl⟩
      · rintro ⟨x, rfl | ⟨hx, hdep⟩, rfl⟩
        · exact Or.inl rfl
        · exact Or.inr ⟨⟨x, hx, rfl⟩, hdep⟩
    · rename_i ht
      rw [admitted_append_other A.new ht]
      exact R.heads t id
  maxGeneration t := by
    rw [maxGenerationOf_append]
    obtain ⟨hle, hmax⟩ := R.maxGeneration t
    split
    · rename_i ht
      subst ht
      rw [admitted_append_self A.new]
      constructor
      · rintro x (rfl | hx)
        · exact le_max_right _ _
        · exact (hle x hx).trans (le_max_left _ _)
      · rcases max_choice (r.maxGenerationOf op.body.topicId) op.body.generation with h | h
        · rw [h]
          exact hmax.imp_right fun ⟨x, hx, hg⟩ => ⟨x, Set.mem_insert_of_mem op hx, hg⟩
        · rw [h]
          exact Or.inr ⟨op, Set.mem_insert op _, rfl⟩
    · rename_i ht
      rw [admitted_append_other A.new ht]
      exact ⟨hle, hmax⟩
  state t st' h := by
    rw [topicState_append] at h
    split at h
    · rename_i ht
      subst ht
      cases h
      obtain ⟨g, γ, B, hst⟩ := A.branch
      rw [admitted_append_self A.new]
      exact ⟨g, γ, B, hst.withHeads _⟩
    · rename_i ht
      rw [admitted_append_other A.new ht]
      exact R.state t st' h
  noState t h := by
    rw [topicState_append] at h
    split at h
    · cases h
    · rename_i ht
      rw [admitted_append_other A.new ht]
      exact R.noState t h
  fingerprint t := by
    rw [topicFingerprintOf_append]
    split
    · rfl
    · rename_i ht
      rw [R.fingerprint, headsOf_append, clockOf_append, if_neg ht, if_neg ht]
  stamped t st' h := by
    simp only [Records.append, getElem?_insert, Std.compare_eq_iff_eq]
    rw [topicState_append] at h
    by_cases ht : op.body.topicId = t
    · exact ⟨_, if_pos ht⟩
    · rw [if_neg ht] at h ⊢
      exact R.stamped t st' h

end Append

/-! ## Resetting a topic -/

/-- The records once the ops `done` of a topic that is reset are gone. -/
structure Dropped (r : Records) (done : List OpId) (r' : Records) : Prop where
  ops : ∀ id : OpId, r'.ops[id]? = if id ∈ done then none else r.ops[id]?
  metas : ∀ id : OpId, r'.metas[id]? = if id ∈ done then none else r.metas[id]?
  children : ∀ d c, c ∈ r'.childrenOf d ↔ c ∈ r.childrenOf d ∧ d ∉ done ∧ c ∉ done
  childKeys : SetMap.NoEmpty r'.children
  rest : r' = { r with ops := r'.ops, metas := r'.metas, children := r'.children }

theorem Dropped.dropOp {done : List OpId} {r' : Records} (R : RecordsOK E r) (h : Dropped r done r')
    (hid : id ∉ done) : Dropped r (done ++ [id]) (r'.dropOp id) where
  ops id' := by
    simp only [Records.dropOp, getElem?_erase, h.ops, List.mem_append, List.mem_singleton,
      Std.compare_eq_iff_eq]
    by_cases hd : id' ∈ done <;> by_cases he : id = id' <;> simp [hd, he, eq_comm]
  metas id' := by
    simp only [Records.dropOp, getElem?_erase, h.metas, List.mem_append, List.mem_singleton,
      Std.compare_eq_iff_eq]
    by_cases hd : id' ∈ done <;> by_cases he : id = id' <;> simp [hd, he, eq_comm]
  children d c := by
    have hdeps : c ∈ r.childrenOf d → c = id → d ∈ (r'.metas[id]?.map (·.deps)).getD ∅ := by
      rintro hc rfl
      obtain ⟨x, hx, rfl, hd⟩ := (R.children d c).1 hc
      obtain ⟨m, hm, hok⟩ := R.hasMeta x.id x hx
      rw [h.metas, if_neg hid, hm]
      rw [hok.eq]
      exact hd
    have hold : c ∈ SetMap.get r'.children d ↔ c ∈ r.childrenOf d ∧ d ∉ done ∧ c ∉ done := h.children d c
    unfold Records.childrenOf Records.dropOp
    simp only [SetMap.get_erase_key, List.mem_append, List.mem_singleton, not_or]
    split
    · rename_i he
      simp [he]
    · rename_i he
      rw [SetMap.mem_get_foldl_erase, hold, mem_toList]
      constructor
      · rintro ⟨⟨hc, hd, hcd⟩, hno⟩
        exact ⟨hc, ⟨hd, Ne.symm he⟩, hcd, fun hcid => hno ⟨hcid.symm, hdeps hc hcid⟩⟩
      · rintro ⟨hc, ⟨hd, -⟩, hcd, hne⟩
        exact ⟨⟨hc, hd, hcd⟩, fun hno => hne hno.1.symm⟩
  childKeys := h.childKeys.foldl_erase.erase_key
  rest := by
    rw [h.rest]
    rfl

theorem Dropped.foldl {l done : List OpId} {r' : Records} (R : RecordsOK E r) (h : Dropped r done r')
    (hl : (done ++ l).Nodup) : Dropped r (done ++ l) (l.foldl Records.dropOp r') := by
  induction l generalizing done r' with
  | nil => simpa using h
  | cons id l ih =>
    have hid : id ∉ done := fun hmem => (List.nodup_append.1 hl).2.2 id hmem id (by simp) rfl
    have := ih (h.dropOp R hid) (by simpa using hl)
    simpa using this

/-- The ops left after a reset are those of the other topics. -/
theorem RecordsOK.ops_resetTopic (R : RecordsOK E r) : Dropped r (r.listOpIds t).toList
    ((r.listOpIds t).toList.foldl Records.dropOp r) := by
  have hstart : Dropped r [] r :=
    ⟨by simp, by simp, by simp, R.childKeys, rfl⟩
  simpa using hstart.foldl R (by simpa using BTreeSet.nodup_toList (r.listOpIds t))

/-- An op is left by a reset exactly when it belongs to another topic. -/
theorem RecordsOK.getElem?_resetTopic (R : RecordsOK E r) :
    (r.resetTopic t).ops[id]? = some x ↔ r.ops[id]? = some x ∧ x.body.topicId ≠ t := by
  change ((r.listOpIds t).toList.foldl Records.dropOp r).ops[id]? = some x ↔ _
  have hmem : id ∈ (r.listOpIds t).toList ↔ ∃ op ∈ r.admitted t, op.id = id := by
    rw [mem_toList, R.topicOps]
  rw [R.ops_resetTopic.ops]
  constructor
  · intro h
    split at h
    · cases h
    · rename_i hno
      refine ⟨h, fun ht => hno (hmem.2 ⟨x, ?_, R.opId id x h⟩)⟩
      exact ht ▸ R.mem_admitted h
  · rintro ⟨h, hne⟩
    rw [if_neg, h]
    intro hin
    obtain ⟨y, hy, hid⟩ := hmem.1 hin
    have hxy : x = y := by
      have := hy.1
      rw [hid, h] at this
      exact Option.some.inj this
    exact hne (hxy ▸ hy.2)

theorem RecordsOK.admitted_resetTopic (R : RecordsOK E r) :
    (r.resetTopic t).admitted t' = if t' = t then ∅ else r.admitted t' := by
  ext x
  simp only [Records.admitted, Set.mem_ofPred_eq, R.getElem?_resetTopic]
  split
  · rename_i h
    subst h
    simp [and_assoc]
  · rename_i h
    simp only [Set.mem_ofPred_eq]
    constructor
    · rintro ⟨⟨hx, -⟩, rfl⟩
      exact ⟨hx, rfl⟩
    · rintro ⟨hx, rfl⟩
      exact ⟨⟨hx, h⟩, rfl⟩

/-- The fields of a reset topic are gone, those of another topic are kept. -/
theorem RecordsOK.reads_resetTopic (R : RecordsOK E r) (t' : TopicId) :
    let r' := r.resetTopic t
    (r'.listOpIds t' = if t' = t then ∅ else r.listOpIds t') ∧
    (r'.headsOf t' = if t' = t then ∅ else r.headsOf t') ∧
    (r'.clockOf t' = if t' = t then ∅ else r.clockOf t') ∧
    (r'.maxGenerationOf t' = if t' = t then 0 else r.maxGenerationOf t') ∧
    (r'.topicState t' = if t' = t then none else r.topicState t') ∧
    (r'.topicFingerprint[t']? = if t' = t then none else r.topicFingerprint[t']?) ∧
    (∀ (a : ActorId) (s : ℕ), r'.actorBySeq[(t', a, s)]? = if t' = t then none else r.actorBySeq[(t', a, s)]?) ∧
    (∀ a : ActorId, r'.actorTip[(t', a)]? = if t' = t then none else r.actorTip[(t', a)]?) := by
  have hrest := (R.ops_resetTopic (t := t)).rest
  intro r'
  have hr' : r' = ((r.listOpIds t).toList.foldl Records.dropOp r).dropTopic t := rfl
  rw [hrest] at hr'
  rw [hr']
  simp only [Records.listOpIds, Records.headsOf, SetMap.get, Records.clockOf, Records.maxGenerationOf,
    Records.topicState, Records.dropTopic, getElem?_erase, Std.compare_eq_iff_eq, getElem?_filter_key]
  by_cases h : t' = t
  · simp [h]
  · simp [h, Ne.symm h]

/-- **A reset forgets one topic and keeps every index of the others exact.** -/
theorem RecordsOK.resetTopic (R : RecordsOK E r) (t : TopicId) : RecordsOK E (r.resetTopic t) := by
  have hdrop := R.ops_resetTopic (t := t)
  have hops : ∀ {id : OpId} {x : Op},
      (r.resetTopic t).ops[id]? = some x ↔ r.ops[id]? = some x ∧ x.body.topicId ≠ t :=
    R.getElem?_resetTopic
  have gone : (r.resetTopic t).admitted t = ∅ := by rw [R.admitted_resetTopic, if_pos rfl]
  have kept : ∀ {t'}, t' ≠ t → (r.resetTopic t).admitted t' = r.admitted t' := by
    intro t' h
    rw [R.admitted_resetTopic, if_neg h]
  have nohead : ∀ {y : Op}, y ∉ opShape.heads (∅ : Set Op) := fun h => h.1
  constructor
  case opId => exact fun id op h => R.opId id op (hops.1 h).1
  case hasMeta =>
    intro id x h
    obtain ⟨m, hm, hok⟩ := R.hasMeta id x (hops.1 h).1
    refine ⟨m, ?_, hok⟩
    change ((r.listOpIds t).toList.foldl Records.dropOp r).ops[id]? = some x at h
    change ((r.listOpIds t).toList.foldl Records.dropOp r).metas[id]? = some m
    rw [hdrop.ops] at h
    rw [hdrop.metas]
    split at h
    · cases h
    · rw [if_neg ‹_›, hm]
  case hasOp =>
    intro id h
    change ((r.listOpIds t).toList.foldl Records.dropOp r).ops[id]? = none at h
    change ((r.listOpIds t).toList.foldl Records.dropOp r).metas[id]? = none
    rw [hdrop.ops] at h
    rw [hdrop.metas]
    split at h
    · rw [if_pos ‹_›]
    · rw [if_neg ‹_›]
      exact R.hasOp id h
  case topicOps =>
    intro t' id
    obtain ⟨hids, -⟩ := R.reads_resetTopic (t := t) t'
    rw [hids]
    by_cases h : t' = t
    · subst h
      simp [gone]
    · rw [if_neg h, kept h]
      exact R.topicOps t' id
  case children =>
    intro d c
    refine (hdrop.children d c).trans ?_
    rw [R.children, mem_toList, mem_toList, R.topicOps, R.topicOps]
    constructor
    · rintro ⟨⟨x, hx, rfl, hd⟩, -, hc⟩
      exact ⟨x, hops.2 ⟨hx, fun ht => hc ⟨x, ⟨hx, ht⟩, rfl⟩⟩, rfl, hd⟩
    · rintro ⟨x, hx, rfl, hd⟩
      obtain ⟨hx, hne⟩ := hops.1 hx
      refine ⟨⟨x, hx, rfl, hd⟩, ?_, ?_⟩
      · rintro ⟨y, hy, hid⟩
        obtain ⟨y', hy', hid'⟩ := R.closed x.body.topicId x ⟨hx, rfl⟩ d hd
        have hyy : y = y' := by
          have h1 := hy.1
          have h2 := hy'.1
          rw [hid] at h1
          rw [show y'.id = d from hid', h1] at h2
          exact Option.some.inj h2
        exact hne (hy'.2.symm.trans (hyy ▸ hy.2))
      · rintro ⟨y, hy, hid⟩
        have h1 := hy.1
        rw [hid, hx] at h1
        exact hne (Option.some.inj h1 ▸ hy.2)
  case childKeys => exact hdrop.childKeys
  case slots =>
    intro t' a s id
    obtain ⟨-, -, -, -, -, -, hslot, -⟩ := R.reads_resetTopic (t := t) t'
    rw [hslot]
    by_cases h : t' = t
    · subst h
      simp [gone]
    · rw [if_neg h, kept h]
      exact R.slots t' a s id
  case tips =>
    intro t' a s id
    obtain ⟨-, -, -, -, -, -, -, htip⟩ := R.reads_resetTopic (t := t) t'
    rw [htip]
    by_cases h : t' = t
    · subst h
      simp [gone]
    · rw [if_neg h, kept h]
      exact R.tips t' a s id
  case clock =>
    intro t' a s hs
    obtain ⟨-, -, hclock, -⟩ := R.reads_resetTopic (t := t) t'
    rw [hclock]
    by_cases h : t' = t
    · subst h
      simp [gone]
      omega
    · rw [if_neg h, kept h]
      exact R.clock t' a s hs
  case clockPos =>
    intro t'
    obtain ⟨-, -, hclock, -⟩ := R.reads_resetTopic (t := t) t'
    rw [hclock]
    split
    · exact ActorClock.Positive.empty
    · exact R.clockPos t'
  case heads =>
    intro t' id
    obtain ⟨-, hheads, -⟩ := R.reads_resetTopic (t := t) t'
    rw [hheads]
    by_cases h : t' = t
    · subst h
      rw [gone]
      simp [nohead]
    · rw [if_neg h, kept h]
      exact R.heads t' id
  case maxGeneration =>
    intro t'
    obtain ⟨-, -, -, hmax, -⟩ := R.reads_resetTopic (t := t) t'
    rw [hmax]
    by_cases h : t' = t
    · subst h
      simp [gone]
    · rw [if_neg h, kept h]
      exact R.maxGeneration t'
  case state =>
    intro t' st hst
    obtain ⟨-, -, -, -, hstate, -⟩ := R.reads_resetTopic (t := t) t'
    rw [hstate] at hst
    split at hst
    · cases hst
    · rename_i h
      rw [kept h]
      exact R.state t' st hst
  case noState =>
    intro t' hst
    obtain ⟨-, -, -, -, hstate, -⟩ := R.reads_resetTopic (t := t) t'
    rw [hstate] at hst
    by_cases h : t' = t
    · exact h ▸ gone
    · rw [if_neg h] at hst
      rw [kept h]
      exact R.noState t' hst
  case fingerprint =>
    intro t'
    obtain ⟨-, hheads, hclock, -, -, hfp, -⟩ := R.reads_resetTopic (t := t) t'
    have hold := R.fingerprint t'
    unfold Records.topicFingerprintOf at hold ⊢
    rw [hfp, hheads, hclock]
    by_cases h : t' = t
    · simp [h]
    · simpa only [if_neg h] using hold
  case stamped =>
    intro t' st hst
    obtain ⟨-, -, -, -, hstate, hfp, -⟩ := R.reads_resetTopic (t := t) t'
    rw [hstate] at hst
    rw [hfp]
    by_cases h : t' = t
    · rw [if_pos h] at hst
      cases hst
    · rw [if_neg h] at hst ⊢
      exact R.stamped t' st hst

/-! ## What the ops determine -/

/-- Metadata is determined by its op. -/
theorem MetaOK.ext {m' : OpMeta} (h : MetaOK E op m) (h' : MetaOK E op m') : m = m' := by
  have hclock : m.observedClock = m'.observedClock := by
    refine ActorClock.ext_of_le_get h.positive h'.positive fun a s hs => ?_
    rw [h.exact a s hs, h'.exact a s hs]
  rw [h.eq, h'.eq, hclock]

/-- Records that hold the same ops of a topic give the same reads of it. -/
structure Records.SameReads (E E' : Env) (t : TopicId) (r r' : Records) : Prop where
  heads : r.headsOf t = r'.headsOf t
  clock : r.clockOf t = r'.clockOf t
  state : r.topicState t = r'.topicState t
  fingerprint : r.topicFingerprintOf E t = r'.topicFingerprintOf E' t
  metas : ∀ op ∈ r.admitted t, ∃ m, r.metas[op.id]? = some m ∧ r'.metas[op.id]? = some m

theorem RecordsOK.sameReads {r' : Records} (R : RecordsOK E r) (R' : RecordsOK E r')
    (h : r.admitted t = r'.admitted t) :
    r.SameReads E E t r' := by
  have hheads : r.headsOf t = r'.headsOf t := by
    refine ext_mem fun id => ?_
    rw [R.heads, R'.heads, h]
  have hclock : r.clockOf t = r'.clockOf t := by
    refine ActorClock.ext_of_le_get (R.clockPos t) (R'.clockPos t) fun a s hs => ?_
    rw [R.clock t a s hs, R'.clock t a s hs, h]
  refine ⟨hheads, hclock, ?_, ?_, ?_⟩
  · cases hst : r.topicState t with
    | none =>
      cases hst' : r'.topicState t with
      | none => rfl
      | some st' =>
        obtain ⟨g, γ, B, -⟩ := R'.state t st' hst'
        have hroot := B.root
        rw [← h, R.noState t hst] at hroot
        exact hroot.elim
    | some st =>
      obtain ⟨g, γ, B, hstate⟩ := R.state t st hst
      cases hst' : r'.topicState t with
      | none =>
        have hroot := B.root
        rw [h, R'.noState t hst'] at hroot
        exact hroot.elim
      | some st' =>
        obtain ⟨g', γ', B', hstate'⟩ := R'.state t st' hst'
        obtain ⟨rfl, rfl⟩ := B.root_unique B' h.subset
        have hext := StateOf.ext B.injOn hstate (h ▸ hstate')
        have hheads' : st.heads = st'.heads := by
          unfold Records.topicState at hst hst'
          obtain ⟨s, -, rfl⟩ := Option.map_eq_some_iff.1 hst
          obtain ⟨s', -, rfl⟩ := Option.map_eq_some_iff.1 hst'
          exact hheads
        rw [← hext, ← hheads']
  · rw [R.fingerprint, R'.fingerprint, hheads, hclock]
  · intro op hop
    obtain ⟨m, hm, hmok⟩ := R.hasMeta op.id op hop.1
    obtain ⟨m', hm', hmok'⟩ := R'.hasMeta op.id op (h ▸ hop).1
    exact ⟨m, hm, by rw [hm', hmok.ext hmok']⟩

end Irokle
