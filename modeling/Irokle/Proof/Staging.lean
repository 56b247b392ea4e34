import Irokle.Proof.Batch
import Irokle.Spec.Storage

/-!
# Activation of a namespace

Activation copies the records of one topic into a store that holds none of it, and moves the
buffered ops of every namespace on the branch.

* `movePending_inv` — moving keeps the indexes of the buffer in step and within the quotas;
* `RecordsOK.copyTopic` — the copied topic reads as in the namespace, every other one as before.
-/

namespace Irokle

open Std Outcome Causal List ExtTreeMap ExtTreeSet

variable {K : Prop} {E : Env} {p q : PendingIndex} {copied inner staged : MemoryInner} {stores : List MemoryInner}
  {t t' : TopicId}
  {id k : OpId} {op : Op} {rec : PendingRecord} {missing : BTreeSet OpId} {index : ℕ} {s s' : Moves}

/-! ## Moving buffered ops -/

/-- Moving a buffered op is buffering it with the source and charge it had. -/
theorem moveOp_eq_store (missing : BTreeSet OpId) (ok : PendingOK p) (hnone : p.pendingRecords[id]? = none)
    (hstore : stores[index]? = some staged) (hrec : staged.pendingRecords[id]? = some rec)
    (hop : staged.pendingOps[id]? = some op) (hid : op.id = id)
    (ht : op.body.topicId = t) (hrt : rec.topicId = t) :
    moveOp t stores p (index, id, missing) = p.store rec.source op missing rec.charge := by
  subst hid
  subst ht
  have hready : p.pendingReady.erase op.id = p.pendingReady := by
    refine ext_mem fun k => ?_
    rw [ExtTreeSet.mem_erase]
    refine ⟨fun h => h.2, fun h => ⟨fun hk => ?_, h⟩⟩
    obtain ⟨rec', hrec', -⟩ := (ok.ready k).1 h
    have hk' : op.id = k := by simpa using hk
    rw [← hk', hnone] at hrec'
    cases hrec'
  have hprevious : ((∅ : BTreeSet OpId) \ missing).toList = [] := by
    rw [eq_nil_iff_forall_not_mem]
    simp
  unfold moveOp PendingIndex.store
  simp only [hstore, Option.bind_some, hrec, hop, hnone, Option.map_none, Option.getD_none, hprevious, hready,
    PendingIndex.unwaitAll, foldl_nil, ← hrt]

/-- The op, or one it waits for, is rejected in the active records. -/
def rejectedIn (inner : MemoryInner) (t : TopicId) (id : OpId) (rec : PendingRecord) : Bool :=
  inner.rejected[t]?.any fun r => (id :: rec.missing.toList).any fun id => r.ids.contains id

/-- The op and record that move for `id`: those of the first store that buffers it without a rejection. -/
def movingIn (inner : MemoryInner) (t : TopicId) (stores : List MemoryInner) (id : OpId) : Option
    (Op × PendingRecord) :=
  stores.findSome? fun staged =>
    (staged.pendingOps[id]?.bind fun op => staged.pendingRecords[id]?.map fun rec => (op, rec)).filter fun e =>
      decide (e.2.topicId = t) && !rejectedIn inner t id e.2

/-- What moves is buffered in one of the stores. -/
theorem movingIn_mem (h : movingIn inner t stores id = some (op, rec)) : ∃ staged ∈ stores,
    staged.pendingOps[id]? = some op ∧ staged.pendingRecords[id]? = some rec ∧ rec.topicId = t ∧
      rejectedIn inner t id rec = false := by
  obtain ⟨staged, hstaged, h⟩ := exists_of_findSome?_eq_some h
  simp only [Option.filter_eq_some_iff, Option.bind_eq_some_iff, Option.map_eq_some_iff, Prod.mk.injEq,
    Bool.and_eq_true, decide_eq_true_eq, Bool.not_eq_true'] at h
  obtain ⟨⟨_, hop, _, hrec, rfl, rfl⟩, ht, hno⟩ := h
  exact ⟨staged, hstaged, hop, hrec, ht, hno⟩

/-- The first record that is not rejected moves. -/
theorem movingIn_split {before after : List MemoryInner}
    (hbefore : ∀ st ∈ before, ∀ rec, st.pendingRecords[id]? = some rec → rec.topicId = t →
      rejectedIn inner t id rec = true)
    (hop : staged.pendingOps[id]? = some op) (hrec : staged.pendingRecords[id]? = some rec) (ht : rec.topicId = t)
    (hno : rejectedIn inner t id rec = false) :
    movingIn inner t (before ++ staged :: after) id = some (op, rec) := by
  have hnone : movingIn inner t before id = none := by
    refine Option.eq_none_iff_forall_ne_some.2 fun e he => ?_
    obtain ⟨st, hst, -, hrec', ht', hno'⟩ := movingIn_mem he
    rw [hbefore st hst e.2 hrec' ht'] at hno'
    cases hno'
  unfold movingIn at hnone ⊢
  rw [findSome?_append, hnone, Option.none_or, findSome?_cons, hop, hrec, Option.bind_some, Option.map_some,
    Option.filter_some, if_pos (by simp [ht, hno])]

/-- The op `op` buffered in one of `stores` is moved as `rec`. -/
structure MovedAs (copied inner : MemoryInner) (t : TopicId) (stores : List MemoryInner) (id : OpId) (op : Op)
    (rec : PendingRecord) : Prop where
  origin : ∃ old, movingIn inner t stores id = some (op, old) ∧
    rec = { old with missing := old.missing.filter fun d => !resolvableWith copied inner d }
  unresolved : resolvableWith copied inner id = false
  fresh : inner.pendingRecords[id]? = none

/-- The planned moves describe the buffer they lead to. -/
structure MoveInv (copied inner : MemoryInner) (t : TopicId) (stores : List MemoryInner) (s : Moves)
    (q : PendingIndex) :
    Prop where
  eq : q = movePending t stores inner.toPendingIndex s.moves
  ok : PendingOK q
  total : q.pendingUsage = s.total
  topic : usageOf q.topicUsage t = s.topic
  sources : ∀ src, usageOf q.sourceUsage src = s.sources[src]?.getD (usageOf inner.sourceUsage src)
  kept : ∀ k : OpId, k ∉ s.moved → q.pendingRecords[k]? = inner.pendingRecords[k]? ∧
    q.pendingOps[k]? = inner.pendingOps[k]?
  moved : ∀ k ∈ s.moved, ∃ op rec, q.pendingOps[k]? = some op ∧ q.pendingRecords[k]? = some rec ∧
    MovedAs copied inner t stores k op rec
  rejected : q.rejected = inner.rejected

/-- The op needs no move: it is admitted, already buffered, or behind a rejected op. -/
def NoMove (copied inner : MemoryInner) (t : TopicId) (id : OpId) (rec : PendingRecord) : Prop :=
  resolvableWith copied inner id = true ∨ (∃ old, inner.pendingRecords[id]? = some old) ∨
    rejectedIn inner t id rec = true

theorem addWaiters_post {waiters : BTreeMap OpId ℕ} {deps : List OpId} :
    Post (addWaiters inner waiters deps) (fun _ => True) fun e => e.isLimit = true := by
  unfold addWaiters
  refine Post.foldlM (fun _ _ => True) trivial fun _ dep _ w _ _ => ?_
  exact refuseIf_bind (fun _ => rfl) fun _ => Post.pure trivial

/-- An op that moved is buffered in one of the stores, where it waits for what it waits for now. -/
theorem MoveInv.moved_from (I : MoveInv copied inner t stores s q) (hid : id ∈ s.moved)
    (hop : q.pendingOps[id]? = some op) (hrec : q.pendingRecords[id]? = some rec) :
    ∃ staged ∈ stores, staged.pendingOps[id]? = some op ∧
      ∃ old, staged.pendingRecords[id]? = some old ∧ ∀ d ∈ rec.missing, d ∈ old.missing := by
  obtain ⟨op', rec', hop', hrec', M⟩ := I.moved id hid
  obtain rfl : op = op' := Option.some.inj (hop.symm.trans hop')
  obtain ⟨old, hmoving, heq⟩ := M.origin
  obtain ⟨staged, hstaged, hstop, hold, -⟩ := movingIn_mem hmoving
  obtain rfl : rec = _ := (Option.some.inj (hrec.symm.trans hrec')).trans heq
  exact ⟨staged, hstaged, hstop, old, hold, fun d hd => ExtTreeSet.mem_of_mem_filter hd⟩

theorem moveInv_start (ok : PendingOK inner.toPendingIndex) :
    MoveInv copied inner t stores { total := inner.pendingUsage, topic := usageOf inner.topicUsage t }
      inner.toPendingIndex where
  eq := rfl
  ok := ok
  total := rfl
  topic := rfl
  sources := by simp
  kept _ _ := ⟨rfl, rfl⟩
  moved := by simp
  rejected := rfl

/-- A planned move is carried out by buffering the op. -/
theorem MoveInv.move (I : MoveInv copied inner t stores s q) (hstaged : stores[index]? = some staged)
    (ok : PendingOK staged.toPendingIndex) (hrec : staged.pendingRecords[id]? = some rec) (ht : rec.topicId = t)
    (hmoving : ∀ op, staged.pendingOps[id]? = some op → movingIn inner t stores id = some (op, rec))
    (hunres : resolvableWith copied inner id = false) (hfresh : inner.pendingRecords[id]? = none)
    (hnew : id ∉ s.moved) (hquota : checkPendingQuota s.total
      (s.sources[rec.source]?.getD (usageOf inner.sourceUsage rec.source)) s.topic
      rec.charge = .ok ()) (waiters : BTreeMap OpId ℕ) :
    ∃ q', MoveInv copied inner t stores
      { total := s.total.charged rec.charge
        topic := s.topic.charged rec.charge
        sources := s.sources.insert rec.source
          ((s.sources[rec.source]?.getD (usageOf inner.sourceUsage rec.source)).charged rec.charge)
        waiters := waiters
        moved := s.moved.insert id
        moves := s.moves ++ [(index, id, rec.missing.filter fun dep =>
          !resolvableWith copied inner dep)] } q' := by
  obtain ⟨op, hop, hid, htopic⟩ := ok.opOf id rec hrec
  have hnone : q.pendingRecords[id]? = none := (I.kept id hnew).1.trans hfresh
  set missing := rec.missing.filter fun dep => !resolvableWith copied inner dep with hmissing
  have hstore := moveOp_eq_store missing I.ok hnone hstaged hrec hop hid (htopic.trans ht) ht
  subst hid
  have hcheck : q.pendingRecords[op.id]? = none →
    checkPendingQuota q.pendingUsage (usageOf q.sourceUsage rec.source)
      (usageOf q.topicUsage op.body.topicId) rec.charge = .ok () := by
    intro _
    rw [I.total, I.sources, htopic, ht, I.topic]
    exact hquota
  obtain ⟨ok', S⟩ := I.ok.store missing (fun rec' h => by rw [hnone] at h; cases h) hcheck
  have hfields : (q.store rec.source op missing rec.charge).pendingUsage = q.pendingUsage.charged rec.charge ∧
      (q.store rec.source op missing rec.charge).topicUsage =
        q.topicUsage.insert op.body.topicId ((usageOf q.topicUsage op.body.topicId).charged rec.charge) ∧
      (q.store rec.source op missing rec.charge).sourceUsage =
        q.sourceUsage.insert rec.source ((usageOf q.sourceUsage rec.source).charged rec.charge) ∧
      (q.store rec.source op missing rec.charge).pendingRecords =
        q.pendingRecords.insert op.id ⟨rec.source, op.body.topicId, missing, rec.charge⟩ := by
    unfold PendingIndex.store
    simp only [hnone, and_self]
  obtain ⟨htotal, htopicUsage, hsource, hrecords⟩ := hfields
  have hstored : (q.store rec.source op missing rec.charge).pendingRecords[op.id]? =
      some { rec with missing := missing } := by
    rw [hrecords, getElem?_insert_self, htopic]
  refine ⟨q.store rec.source op missing rec.charge, ?_, ok', ?_, ?_, fun src => ?_, fun k hk => ?_,
    fun k hk => ?_, S.rejected.trans I.rejected⟩
  · rw [← hstore, I.eq]
    simp [movePending]
  · rw [htotal, I.total]
  · rw [htopicUsage, usageOf, htopic, ht, getElem?_insert_self, ← I.topic]
    rfl
  · rw [hsource, usageOf]
    by_cases hsrc : rec.source = src
    · subst hsrc
      simp only [getElem?_insert_self, Option.getD_some, I.sources]
    · simp only [ExtTreeMap.getElem?_insert, Std.compare_eq_iff_eq, hsrc, if_false]
      exact I.sources src
  · rw [ExtTreeSet.mem_insert, not_or] at hk
    have hne : op.id ≠ k := by simpa using hk.1
    obtain ⟨h1, h2⟩ := I.kept k hk.2
    exact ⟨(S.records k hne).trans h1, by rw [S.ops, if_neg hne, h2]⟩
  · by_cases hk' : op.id = k
    · subst hk'
      exact ⟨op, _, by rw [S.ops, if_pos rfl], hstored, ⟨rec, hmoving op hop, rfl⟩, hunres, hfresh⟩
    · obtain ⟨op', rec', hop', hrec', hm⟩ := I.moved k (by simpa [hk'] using hk)
      exact ⟨op', rec', by rw [S.ops, if_neg hk', hop'], (S.records k hk').trans hrec', hm⟩

/-- The buffered op is planned, or needs no move. -/
def Planned (copied inner : MemoryInner) (t : TopicId) (s : Moves) (staged : MemoryInner) (id : OpId) : Prop :=
  ∀ rec, staged.pendingRecords[id]? = some rec → rec.topicId = t → id ∈ s.moved ∨ NoMove copied inner t id rec

theorem Planned.mono (hsub : ∀ k ∈ s.moved, k ∈ s'.moved) (h : Planned copied inner t s staged id) :
    Planned copied inner t s' staged id := fun rec hrec ht => (h rec hrec ht).imp_left (hsub id)

section Plan

variable {before after : List MemoryInner} (hsplit : stores = before ++ staged :: after)
  (hindex : index = before.length)

include hsplit hindex

/-- Planning one move keeps the invariant; the op is planned unless it needs no move. -/
theorem planMove_post (I : MoveInv copied inner t stores s q) (ok : PendingOK staged.toPendingIndex)
    (hbefore : ∀ st ∈ before, Planned copied inner t s st id) (hid : id ∈ SetMap.get staged.pendingByTopic t) :
    Post (planMove copied inner t index staged s id)
      (fun s' => (∃ q', MoveInv copied inner t stores s' q') ∧ (∀ k ∈ s.moved, k ∈ s'.moved) ∧
        Planned copied inner t s' staged id) fun e => e.isLimit = true := by
  obtain ⟨rec, hrec, ht⟩ := (ok.byTopic t id).1 hid
  have hplanned : ∀ s' : Moves, id ∈ s'.moved ∨ NoMove copied inner t id rec →
      Planned copied inner t s' staged id := by
    intro s' h rec' hrec' _
    rwa [← Option.some.inj (hrec.symm.trans hrec')]
  unfold planMove
  rw [hrec]
  dsimp only
  split
  · rename_i hskip
    refine Post.ok ⟨⟨q, I⟩, fun _ h => h, hplanned s ?_⟩
    simp only [Bool.or_eq_true] at hskip
    rcases hskip with ((h | h) | h) | h
    · exact Or.inr (Or.inl h)
    · rw [contains_eq_isSome_getElem?, Option.isSome_iff_exists] at h
      exact Or.inr (Or.inr (Or.inl h))
    · exact Or.inr (Or.inr (Or.inr h))
    · exact Or.inl (by simpa using h)
  · rename_i hmove
    simp only [Bool.or_eq_true, not_or, Bool.not_eq_true] at hmove
    obtain ⟨⟨⟨hunres, hfresh⟩, hno⟩, hnew⟩ := hmove
    have hfresh' : inner.pendingRecords[id]? = none := by
      rw [contains_eq_isSome_getElem?] at hfresh
      exact Option.isSome_eq_false_iff.1 hfresh |> Option.isNone_iff_eq_none.1
    have hnew' : id ∉ s.moved := by
      intro h
      rw [ExtTreeSet.contains_iff_mem.2 h] at hnew
      cases hnew
    -- a store before this one would have moved the op, unless it was rejected there
    have hmoving : ∀ op, staged.pendingOps[id]? = some op → movingIn inner t stores id = some (op, rec) := by
      intro op hop
      rw [hsplit]
      refine movingIn_split (fun st hst rec' hrec' ht' => ?_) hop hrec ht hno
      rcases hbefore st hst rec' hrec' ht' with h | h | ⟨old, h⟩ | h
      · exact absurd h hnew'
      · rw [hunres] at h
        cases h
      · rw [hfresh'] at h
        cases h
      · exact h
    have hstaged : stores[index]? = some staged := by simp [hsplit, hindex]
    refine checkPendingQuota_post.bind fun _ hquota => ?_
    refine addWaiters_post.bind fun waiters _ =>
      Post.pure ⟨?_, fun k hk => by simp [hk], hplanned _ (Or.inl (by simp))⟩
    exact I.move hstaged ok hrec ht hmoving hunres hfresh' hnew' hquota waiters

/-- The moves of one store. -/
theorem planStore_post (I : MoveInv copied inner t stores s q) (ok : PendingOK staged.toPendingIndex)
    (hbefore : ∀ st ∈ before, ∀ id, Planned copied inner t s st id) :
    Post ((SetMap.get staged.pendingByTopic t).toList.foldlM (planMove copied inner t index staged) s)
      (fun s' => (∃ q', MoveInv copied inner t stores s' q') ∧ (∀ k ∈ s.moved, k ∈ s'.moved) ∧
        ∀ id ∈ (SetMap.get staged.pendingByTopic t).toList, Planned copied inner t s' staged id)
      fun e => e.isLimit = true := by
  refine Post.foldlM (fun done s' => (∃ q', MoveInv copied inner t stores s' q') ∧ (∀ k ∈ s.moved, k ∈ s'.moved) ∧
      ∀ id ∈ done, Planned copied inner t s' staged id) ⟨⟨q, I⟩, fun _ h => h, by simp⟩ ?_
  rintro done id rest s₁ hl ⟨⟨q₁, I₁⟩, hsub, hdone⟩
  have hid : id ∈ SetMap.get staged.pendingByTopic t := by
    rw [← mem_toList, hl]
    simp
  refine (planMove_post hsplit hindex I₁ ok (fun st hst => (hbefore st hst id).mono hsub) hid).mono
    (fun s₂ h => ?_) fun _ h => h
  obtain ⟨hI₂, hsub₂, hplanned⟩ := h
  refine ⟨hI₂, fun k hk => hsub₂ k (hsub k hk), fun k hk => ?_⟩
  rcases mem_append.1 hk with hk | hk
  · exact (hdone k hk).mono hsub₂
  · rw [mem_singleton.1 hk]
    exact hplanned

end Plan

/-- **Moving the buffered ops** keeps the indexes in step: what the active records buffered stays as it is,
and each op of the branch is moved unless it needs no move. -/
theorem pendingMoves_post (ok : PendingOK inner.toPendingIndex)
    (hstores : ∀ staged ∈ stores, PendingOK staged.toPendingIndex) :
    Post (pendingMoves copied inner t stores)
      (fun moves => ∃ s, MoveInv copied inner t stores s (movePending t stores inner.toPendingIndex moves) ∧
        ∀ staged ∈ stores, ∀ (id : OpId) rec, staged.pendingRecords[id]? = some rec → rec.topicId = t →
          id ∈ s.moved ∨ NoMove copied inner t id rec)
      fun e => e.isLimit = true := by
  unfold pendingMoves
  have hfold : Post (stores.zipIdx.foldlM (fun s e =>
        (SetMap.get e.1.pendingByTopic t).toList.foldlM (planMove copied inner t e.2 e.1) s)
      ({ total := inner.pendingUsage, topic := usageOf inner.topicUsage t } : Moves))
      (fun s => (∃ q, MoveInv copied inner t stores s q) ∧
        ∀ e ∈ stores.zipIdx, ∀ id, Planned copied inner t s e.1 id)
      fun e => e.isLimit = true := by
    refine Post.foldlM (fun (done : List (MemoryInner × ℕ)) s => (∃ q, MoveInv copied inner t stores s q) ∧
      ∀ e ∈ done, ∀ id, Planned copied inner t s e.1 id) ⟨⟨_, moveInv_start ok⟩, by simp⟩ ?_
    rintro done ⟨staged, index⟩ rest s hl ⟨⟨q, I⟩, hdone⟩
    have hsplit : stores = done.map Prod.fst ++ staged :: rest.map Prod.fst := by
      rw [← zipIdx_map_fst 0 stores, hl]
      simp
    have hmem : (staged, index) ∈ stores.zipIdx := by simp [hl]
    have hstaged : stores[index]? = some staged := mem_zipIdx_iff_getElem?.1 hmem
    have hindex : index = (done.map Prod.fst).length := by
      have hat : stores.zipIdx[done.length]? = some (staged, index) := by simp [hl]
      rw [getElem?_zipIdx] at hat
      obtain ⟨x, -, hx⟩ := Option.map_eq_some_iff.1 hat
      simpa using (congrArg Prod.snd hx).symm
    have ok' := hstores staged (mem_of_getElem? hstaged)
    refine (planStore_post hsplit hindex I ok' fun st hst => ?_).mono (fun s' h => ?_) fun _ h => h
    · obtain ⟨e, he, rfl⟩ := List.mem_map.1 hst
      exact hdone e he
    · obtain ⟨hI', hsub, hplanned⟩ := h
      refine ⟨hI', fun e he id => ?_⟩
      rcases mem_append.1 he with he | he
      · exact (hdone e he id).mono hsub
      · rw [mem_singleton.1 he]
        intro rec hrec ht
        exact hplanned id (mem_toList.2 ((ok'.byTopic t id).2 ⟨rec, hrec, ht⟩)) rec hrec ht
  refine hfold.bind fun s h => Post.pure ?_
  obtain ⟨⟨q, I⟩, hplanned⟩ := h
  refine ⟨s, I.eq ▸ I, fun staged hstaged id rec hrec ht => ?_⟩
  obtain ⟨index, hindex⟩ := mem_iff_getElem?.1 hstaged
  exact hplanned (staged, index) (mem_zipIdx_iff_getElem?.2 hindex) id rec hrec ht

/-! ## Copying a topic -/

section Copy

variable {r rs r' : Records} {ids : List OpId} {st : TopicState} {a : ActorId}

/-- What copying the ops `ids` does. -/
structure CopiedOps (rs r : Records) (ids : List OpId) (r' : Records) : Prop where
  ops : ∀ k : OpId, r'.ops[k]? = if k ∈ ids ∧ rs.depResolvable k = true then rs.ops[k]? else r.ops[k]?
  metas : ∀ k : OpId, r'.metas[k]? = if k ∈ ids ∧ rs.depResolvable k = true then rs.metas[k]? else r.metas[k]?
  children : ∀ d c, c ∈ r'.childrenOf d ↔
    c ∈ r.childrenOf d ∨ c ∈ ids ∧ rs.depResolvable c = true ∧ ∃ m, rs.metas[c]? = some m ∧ d ∈ m.deps
  childKeys : SetMap.NoEmpty r.children → SetMap.NoEmpty r'.children
  rest : r' = { r with ops := r'.ops, metas := r'.metas, children := r'.children }

theorem Records.depResolvable_eq_true :
    r.depResolvable k = true ↔ (∃ op, r.ops[k]? = some op) ∧ ∃ m, r.metas[k]? = some m := by
  unfold Records.depResolvable
  rw [Bool.and_eq_true, contains_eq_isSome_getElem?, contains_eq_isSome_getElem?,
    Option.isSome_iff_exists, Option.isSome_iff_exists]

theorem copiedOps_foldl (rs r : Records) (ids : List OpId) : CopiedOps rs r ids (ids.foldl rs.copyOp r) := by
  induction ids generalizing r with
  | nil => exact ⟨by simp, by simp, by simp, fun h => h, rfl⟩
  | cons id ids ih =>
    rw [foldl_cons]
    have h := ih (rs.copyOp r id)
    by_cases hres : rs.depResolvable id = true
    · obtain ⟨⟨op, hop⟩, m, hm⟩ := Records.depResolvable_eq_true.1 hres
      have hcopy : rs.copyOp r id = { r with
          children := m.deps.toList.foldl (fun c dep => SetMap.insert c dep id) r.children
          ops := r.ops.insert id op
          metas := r.metas.insert id m } := by simp [Records.copyOp, hop, hm]
      rw [hcopy] at h ⊢
      refine ⟨fun k => (h.ops k).trans ?_, fun k => (h.metas k).trans ?_, fun d c => (h.children d c).trans ?_,
        fun hk => h.childKeys hk.foldl_insert, h.rest⟩
      · by_cases hk : k = id
        · subst hk
          simp [hres, hop]
        · simp [hk, ExtTreeMap.getElem?_insert, Ne.symm hk]
      · by_cases hk : k = id
        · subst hk
          simp [hres, hm]
        · simp [hk, ExtTreeMap.getElem?_insert, Ne.symm hk]
      · simp only [Records.childrenOf, SetMap.mem_get_foldl_insert, mem_toList, mem_cons]
        by_cases hc : c = id
        · subst hc
          simp [hres, hm]
          tauto
        · simp [hc, Ne.symm hc]
    · -- an op without both records is passed over
      have hsame : rs.copyOp r id = r := by
        unfold Records.copyOp
        split
        · rename_i op m hop hm
          exact absurd (Records.depResolvable_eq_true.2 ⟨⟨op, hop⟩, m, hm⟩) hres
        · rfl
      rw [hsame] at h ⊢
      refine ⟨fun k => (h.ops k).trans ?_, fun k => (h.metas k).trans ?_, fun d c => (h.children d c).trans ?_,
        h.childKeys, h.rest⟩
      · by_cases hk : k = id <;> simp [hk, hres]
      · by_cases hk : k = id <;> simp [hk, hres]
      · by_cases hc : c = id <;> simp [hc, hres]

/-- The copied ops become resolvable, and no others. -/
theorem Records.depResolvable_copyTopic : (rs.copyTopic r t).depResolvable k = true ↔
    r.depResolvable k = true ∨ k ∈ rs.listOpIds t ∧ rs.depResolvable k = true := by
  have C := copiedOps_foldl rs r (rs.listOpIds t).toList
  have hread : (rs.copyTopic r t).depResolvable k =
      ((((rs.listOpIds t).toList.foldl rs.copyOp r).ops[k]?).isSome &&
        (((rs.listOpIds t).toList.foldl rs.copyOp r).metas[k]?).isSome) := by
    simp only [Records.depResolvable, Records.copyTopic, contains_eq_isSome_getElem?]
  rw [hread, C.ops, C.metas]
  simp only [mem_toList]
  by_cases hk : k ∈ rs.listOpIds t ∧ rs.depResolvable k = true
  · have hboth : k ∈ rs.ops ∧ k ∈ rs.metas := by simpa [Records.depResolvable] using hk.2
    simp [hk, hboth]
  · rw [if_neg hk, if_neg hk, or_iff_left hk]
    simp [Records.depResolvable]

/-- A topic with no state has no trace in the records. -/
structure Absent (r : Records) (t : TopicId) : Prop where
  ops : ∀ (id : OpId) op, r.ops[id]? = some op → op.body.topicId ≠ t
  slots : ∀ (a : ActorId) (s : ℕ), r.actorBySeq[(t, a, s)]? = none
  tips : ∀ a : ActorId, r.actorTip[(t, a)]? = none

theorem RecordsOK.absent (R : RecordsOK E r) (h : r.topicState t = none) : Absent r t := by
  have hno := R.noState t h
  refine ⟨fun id op hop ht => ?_, fun a s => ?_, fun a => ?_⟩
  · have := R.mem_admitted hop
    rw [ht, hno] at this
    exact this
  · refine Option.eq_none_iff_forall_ne_some.2 fun id hid => ?_
    obtain ⟨op, hop, -⟩ := (R.slots t a s id).1 hid
    rw [hno] at hop
    exact hop
  · refine Option.eq_none_iff_forall_ne_some.2 fun tip htip => ?_
    obtain ⟨⟨op, hop, -⟩, -⟩ := (R.tips t a tip.1 tip.2).1 htip
    rw [hno] at hop
    exact hop

/-- **What a copied topic reads as**: `t` as in the namespace, every other topic as before. -/
structure CopiedTopic (E : Env) (rs r : Records) (t : TopicId) (r' : Records) : Prop where
  ops : ∀ id : OpId, r'.ops[id]? = if id ∈ rs.listOpIds t then rs.ops[id]? else r.ops[id]?
  metas : ∀ id : OpId, r'.metas[id]? = if id ∈ rs.listOpIds t then rs.metas[id]? else r.metas[id]?
  listOpIds : ∀ t', r'.listOpIds t' = if t' = t then rs.listOpIds t else r.listOpIds t'
  children : ∀ d c, c ∈ r'.childrenOf d ↔ if c ∈ rs.listOpIds t then c ∈ rs.childrenOf d else c ∈ r.childrenOf d
  slots : ∀ (t' : TopicId) (a : ActorId) (s : ℕ), r'.actorBySeq[(t', a, s)]? =
    if t' = t then rs.actorBySeq[(t, a, s)]? else r.actorBySeq[(t', a, s)]?
  tips : ∀ (t' : TopicId) (a : ActorId), r'.actorTip[(t', a)]? = if t' = t then rs.actorTip[(t, a)]?
    else r.actorTip[(t', a)]?
  heads : ∀ t', r'.headsOf t' = if t' = t then rs.headsOf t else r.headsOf t'
  clock : ∀ t', r'.clockOf t' = if t' = t then rs.clockOf t else r.clockOf t'
  fingerprint : ∀ t', r'.topicFingerprintOf E t' = if t' = t then rs.topicFingerprintOf E t
    else r.topicFingerprintOf E t'
  maxGeneration : ∀ t', r'.maxGenerationOf t' = if t' = t then rs.maxGenerationOf t else r.maxGenerationOf t'
  state : ∀ t', r'.topicState t' = if t' = t then rs.topicState t else r.topicState t'

theorem RecordsOK.clockOf_eq_empty (R : RecordsOK E r) (h : r.topicState t = none) : r.clockOf t = ∅ := by
  refine ActorClock.ext_of_le_get (R.clockPos t) .empty fun a s hs => ?_
  rw [R.clock t a s hs, R.noState t h]
  have : ActorClock.get ∅ a = 0 := by simp [ActorClock.get]
  rw [this]
  constructor
  · rintro ⟨_, h, _⟩
    exact h.elim
  · intro h
    omega

theorem RecordsOK.maxGenerationOf_eq_zero (R : RecordsOK E r) (h : r.topicState t = none) :
    r.maxGenerationOf t = 0 := by
  rcases (R.maxGeneration t).2 with h0 | ⟨op, hop, -⟩
  · exact h0
  · rw [R.noState t h] at hop
    exact hop.elim

theorem getElem?_copyKey {κ ν : Type} [Ord κ] [TransOrd κ] [LawfulEqOrd κ] [DecidableEq κ] {m' m : BTreeMap κ ν}
    {k k' : κ} :
    (copyKey m' m k)[k']? = if k' = k then m'[k]?.or m[k]? else m[k']? := by
  unfold copyKey
  split
  · rename_i v hv
    rw [ExtTreeMap.getElem?_insert, hv]
    by_cases h : k' = k
    · simp [h]
    · simp [h, Ne.symm h]
  · rename_i hv
    rw [hv]
    by_cases h : k' = k <;> simp [h]

/-- Reading with a default what a copied key or the old entry gives. -/
theorem getD_or_eq {ν : Type} {a b : Option ν} {d : ν} (h : b.getD d = d) : (a.or b).getD d = a.getD d := by
  cases a with
  | none => simpa using h
  | some v => rfl

theorem RecordsOK.copied_ids (Rs : RecordsOK E rs) : k ∈ (rs.listOpIds t).toList ∧ rs.depResolvable k = true ↔
    k ∈ rs.listOpIds t := by
  rw [mem_toList]
  refine ⟨fun h => h.1, fun h => ⟨h, ?_⟩⟩
  obtain ⟨op, hop, rfl⟩ := (Rs.topicOps t k).1 h
  exact Rs.depResolvable_iff.2 ⟨op, hop.1⟩

/-- An op of the copied topic is not held yet. -/
theorem Absent.fresh (A : Absent r t) (Rs : RecordsOK E rs) (R : RecordsOK E r) (hk : k ∈ rs.listOpIds t) :
    r.ops[k]? = none := by
  obtain ⟨op, hop, rfl⟩ := (Rs.topicOps t k).1 hk
  refine Option.eq_none_iff_forall_ne_some.2 fun x hx => A.ops op.id x hx ?_
  rw [R.eq_of_valid hx (Rs.valid hop.1)]
  exact hop.2

/-- Copying a topic the records do not hold. -/
theorem RecordsOK.copiedTopic (Rs : RecordsOK E rs) (R : RecordsOK E r) (hnone : r.topicState t = none)
    (hst : rs.topicState t = some st) :
    CopiedTopic E rs r t { rs.copyTopic r t with topics := (rs.copyTopic r t).topics.insert t st } := by
  have C := copiedOps_foldl rs r (rs.listOpIds t).toList
  have A := R.absent hnone
  set rc := (rs.listOpIds t).toList.foldl rs.copyOp r with hrc
  have hrest := C.rest
  have hheads : ∀ t', SetMap.get (copyKey rs.heads rc.heads t) t' = if t' = t then rs.headsOf t
      else r.headsOf t' := by
    intro t'
    rw [hrest]
    simp only [SetMap.get, getElem?_copyKey]
    split
    · exact getD_or_eq (R.headsOf_eq_empty hnone)
    · rfl
  have hclock : ∀ t', (copyKey rs.actorClock rc.actorClock t)[t']?.getD ∅ = if t' = t then rs.clockOf t
      else r.clockOf t' := by
    intro t'
    rw [hrest]
    simp only [getElem?_copyKey]
    split
    · exact getD_or_eq (R.clockOf_eq_empty hnone)
    · rfl
  constructor
  case ops => exact fun id => (C.ops id).trans (if_congr Rs.copied_ids rfl rfl)
  case metas => exact fun id => (C.metas id).trans (if_congr Rs.copied_ids rfl rfl)
  case listOpIds =>
    intro t'
    show SetMap.get (rc.topicOps.insert t _) t' = _
    rw [hrest]
    simp only [SetMap.get, Records.listOpIds, ExtTreeMap.getElem?_insert, Std.compare_eq_iff_eq]
    by_cases h : t' = t
    · simp [h]
    · simp [h, Ne.symm h]
  case children =>
    intro d c
    refine (C.children d c).trans ?_
    rw [← and_assoc, Rs.copied_ids]
    split
    · rename_i hc
      obtain ⟨op, hop, rfl⟩ := (Rs.topicOps t c).1 hc
      obtain ⟨m, hm, hok⟩ := Rs.hasMeta op.id op hop.1
      have hdeps : m.deps = op.body.deps := by rw [hok.eq]; rfl
      constructor
      · rintro (hold | ⟨-, m', hm', hd⟩)
        · obtain ⟨x, hx, hid, -⟩ := (R.children d op.id).1 hold
          rw [hid, A.fresh Rs R hc] at hx
          cases hx
        · rw [hm] at hm'
          cases hm'
          exact (Rs.children d op.id).2 ⟨op, hop.1, rfl, hdeps ▸ hd⟩
      · intro h
        obtain ⟨x, hx, hid, hd⟩ := (Rs.children d op.id).1 h
        rw [hid, hop.1] at hx
        cases hx
        exact Or.inr ⟨hc, m, hm, hdeps ▸ hd⟩
    · rename_i hc
      exact ⟨fun h => h.resolve_right fun h => hc h.1, Or.inl⟩
  case slots =>
    intro t' a s
    show (rc.actorBySeq ∪ _)[(t', a, s)]? = _
    rw [hrest, getElem?_union, getElem?_filter_key]
    by_cases h : t' = t
    · subst h
      simp [A.slots]
    · simp [h]
  case tips =>
    intro t' a
    show (rc.actorTip ∪ _)[(t', a)]? = _
    rw [hrest, getElem?_union, getElem?_filter_key]
    by_cases h : t' = t
    · subst h
      simp [A.tips]
    · simp [h]
  case heads => exact hheads
  case clock => exact hclock
  case fingerprint =>
    intro t'
    obtain ⟨d, hd⟩ := Rs.stamped t st hst
    show (copyKey rs.topicFingerprint rc.topicFingerprint t)[t']?.getD
      (E.topicFingerprintFor (SetMap.get (copyKey rs.heads rc.heads t) t')
        ((copyKey rs.actorClock rc.actorClock t)[t']?.getD ∅)) = _
    rw [hheads, hclock, getElem?_copyKey, hrest]
    unfold Records.topicFingerprintOf
    by_cases h : t' = t
    · simp [h, hd]
    · simp [h]
  case maxGeneration =>
    intro t'
    show (copyKey rs.maxGeneration rc.maxGeneration t)[t']?.getD 0 = _
    rw [hrest]
    simp only [getElem?_copyKey]
    split
    · exact getD_or_eq (R.maxGenerationOf_eq_zero hnone)
    · rfl
  case state =>
    intro t'
    show ((rc.topics.insert t st)[t']?).map
      (fun state => { state with heads := SetMap.get (copyKey rs.heads rc.heads t) t' }) = _
    rw [hheads, hrest, ExtTreeMap.getElem?_insert]
    by_cases h : t' = t
    · subst h
      rw [hst]
      simp only [Std.compare_self, if_true, Option.map_some, Option.some.injEq]
      unfold Records.topicState at hst
      obtain ⟨st', -, rfl⟩ := Option.map_eq_some_iff.1 hst
      rfl
    · simp only [Std.compare_eq_iff_eq, Ne.symm h, if_false, h]
      rfl

theorem CopiedTopic.admitted (C : CopiedTopic E rs r t r') (Rs : RecordsOK E rs) (R : RecordsOK E r)
    (hnone : r.topicState t = none) (t' : TopicId) :
    r'.admitted t' = if t' = t then rs.admitted t else r.admitted t' := by
  have A := R.absent hnone
  have hstaged : ∀ {x : Op}, x.id ∈ rs.listOpIds t → rs.ops[x.id]? = some x → x.body.topicId = t := by
    intro x hx hop
    obtain ⟨y, hy, hid⟩ := (Rs.topicOps t x.id).1 hx
    have := hy.1
    rw [hid, hop] at this
    cases this
    exact hy.2
  ext x
  by_cases ht : t' = t
  · subst ht
    rw [if_pos rfl]
    constructor
    · rintro ⟨hx, htopic⟩
      rw [C.ops] at hx
      split at hx
      · exact ⟨hx, htopic⟩
      · exact absurd htopic (A.ops _ x hx)
    · intro hx
      exact ⟨by rw [C.ops, if_pos ((Rs.topicOps _ _).2 ⟨x, hx, rfl⟩)]; exact hx.1, hx.2⟩
  · rw [if_neg ht]
    constructor
    · rintro ⟨hx, htopic⟩
      rw [C.ops] at hx
      split at hx
      · rename_i hin
        exact absurd (htopic.symm.trans (hstaged hin hx)) ht
      · exact ⟨hx, htopic⟩
    · rintro ⟨hx, htopic⟩
      refine ⟨?_, htopic⟩
      rw [C.ops, if_neg fun hin => ?_, hx]
      rw [A.fresh Rs R hin] at hx
      cases hx

/-- **The copied records are sound.** -/
theorem CopiedTopic.recordsOK (C : CopiedTopic E rs r t r') (Rs : RecordsOK E rs) (R : RecordsOK E r)
    (hnone : r.topicState t = none) (hkeys : SetMap.NoEmpty r'.children)
    (hstamp : ∀ t' st, r'.topicState t' = some st → ∃ d, r'.topicFingerprint[t']? = some d) : RecordsOK E r' := by
  have hadm := C.admitted Rs R hnone
  have A := R.absent hnone
  -- each field of a topic is the namespace's or the old one
  have split : ∀ {Q : TopicId → Prop}, Q t → (∀ t', t' ≠ t → Q t') → ∀ t', Q t' := by
    intro Q h h' t'
    by_cases ht : t' = t
    · exact ht ▸ h
    · exact h' t' ht
  refine ⟨fun id op hop => ?_, fun id op hop => ?_, fun id hid => ?_, split ?_ ?_, fun d c => ?_, hkeys,
    split ?_ ?_, split ?_ ?_,
    split ?_ ?_, split ?_ ?_, split ?_ ?_, split ?_ ?_, split ?_ ?_, split ?_ ?_, split ?_ ?_, hstamp⟩
  · rw [C.ops] at hop
    split at hop
    · exact Rs.opId id op hop
    · exact R.opId id op hop
  · rw [C.ops] at hop
    rw [C.metas]
    split at hop
    · rename_i hin
      rw [if_pos hin]
      exact Rs.hasMeta id op hop
    · rename_i hin
      rw [if_neg hin]
      exact R.hasMeta id op hop
  · rw [C.ops] at hid
    rw [C.metas]
    split at hid
    · rename_i hin
      rw [if_pos hin]
      exact Rs.hasOp id hid
    · rename_i hin
      rw [if_neg hin]
      exact R.hasOp id hid
  · intro id
    rw [C.listOpIds, hadm, if_pos rfl, if_pos rfl]
    exact Rs.topicOps t id
  · intro t' ht id
    rw [C.listOpIds, hadm, if_neg ht, if_neg ht]
    exact R.topicOps t' id
  · rw [C.children]
    constructor
    · intro h
      split at h
      · rename_i hin
        obtain ⟨op, hop, hid, hd⟩ := (Rs.children d c).1 h
        exact ⟨op, by rw [C.ops, hid, if_pos hin, ← hid]; exact hop, hid, hd⟩
      · rename_i hin
        obtain ⟨op, hop, hid, hd⟩ := (R.children d c).1 h
        exact ⟨op, by rw [C.ops, hid, if_neg hin, ← hid]; exact hop, hid, hd⟩
    · rintro ⟨op, hop, hid, hd⟩
      rw [C.ops] at hop
      subst hid
      split
      · rename_i hin
        rw [if_pos hin] at hop
        exact (Rs.children d op.id).2 ⟨op, hop, rfl, hd⟩
      · rename_i hin
        rw [if_neg hin] at hop
        exact (R.children d op.id).2 ⟨op, hop, rfl, hd⟩
  · intro a s id
    rw [C.slots, hadm, if_pos rfl, if_pos rfl]
    exact Rs.slots t a s id
  · intro t' ht a s id
    rw [C.slots, hadm, if_neg ht, if_neg ht]
    exact R.slots t' a s id
  · intro a s id
    rw [C.tips, hadm, if_pos rfl, if_pos rfl]
    exact Rs.tips t a s id
  · intro t' ht a s id
    rw [C.tips, hadm, if_neg ht, if_neg ht]
    exact R.tips t' a s id
  · intro a s hs
    rw [C.clock, hadm, if_pos rfl, if_pos rfl]
    exact Rs.clock t a s hs
  · intro t' ht a s hs
    rw [C.clock, hadm, if_neg ht, if_neg ht]
    exact R.clock t' a s hs
  · rw [C.clock, if_pos rfl]
    exact Rs.clockPos t
  · intro t' ht
    rw [C.clock, if_neg ht]
    exact R.clockPos t'
  · intro id
    rw [C.heads, hadm, if_pos rfl, if_pos rfl]
    exact Rs.heads t id
  · intro t' ht id
    rw [C.heads, hadm, if_neg ht, if_neg ht]
    exact R.heads t' id
  · rw [C.maxGeneration, hadm, if_pos rfl, if_pos rfl]
    exact Rs.maxGeneration t
  · intro t' ht
    rw [C.maxGeneration, hadm, if_neg ht, if_neg ht]
    exact R.maxGeneration t'
  · intro st hst
    rw [C.state, if_pos rfl] at hst
    rw [hadm, if_pos rfl]
    exact Rs.state t st hst
  · intro t' ht st hst
    rw [C.state, if_neg ht] at hst
    rw [hadm, if_neg ht]
    exact R.state t' st hst
  · intro hst
    rw [C.state, if_pos rfl] at hst
    rw [hadm, if_pos rfl]
    exact Rs.noState t hst
  · intro t' ht hst
    rw [C.state, if_neg ht] at hst
    rw [hadm, if_neg ht]
    exact R.noState t' hst
  · rw [C.fingerprint, C.heads, C.clock, if_pos rfl, if_pos rfl, if_pos rfl]
    exact Rs.fingerprint t
  · intro t' ht
    rw [C.fingerprint, C.heads, C.clock, if_neg ht, if_neg ht, if_neg ht]
    exact R.fingerprint t'

/-- Copying a topic the records do not hold keeps them sound. -/
theorem RecordsOK.copyTopic (Rs : RecordsOK E rs) (R : RecordsOK E r) (hnone : r.topicState t = none)
    (hst : rs.topicState t = some st) :
    RecordsOK E { rs.copyTopic r t with topics := (rs.copyTopic r t).topics.insert t st } := by
  have C := copiedOps_foldl rs r (rs.listOpIds t).toList
  have hcopy := Rs.copiedTopic R hnone hst
  refine hcopy.recordsOK Rs R hnone (C.childKeys R.childKeys) fun t' st' hst' => ?_
  show ∃ d, (copyKey rs.topicFingerprint _ t)[t']? = some d
  rw [getElem?_copyKey, C.rest]
  rw [hcopy.state] at hst'
  by_cases ht : t' = t
  · obtain ⟨d, hd⟩ := Rs.stamped t st hst
    exact ⟨d, by simp [ht, hd]⟩
  · rw [if_neg ht] at hst' ⊢
    exact R.stamped t' st' hst'

end Copy

end Irokle
