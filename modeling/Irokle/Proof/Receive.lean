import Irokle.Proof.Admission

/-!
# A receive reports exactly what it committed

The loop of `receive_ops_admission` takes the caller's batch and then the ready buffered ops one by
one. Each round that goes on admits a buffered op, ends a pass or a window, or comes closer to the
end of the ready index, so the loop ends; and the report it carries stays exact.

* `takeOp_spec` — a buffered op is admitted alone, or nothing but the buffer changes;
* `drainRound_spec` — one round keeps `DrainOK` and lowers the measure;
* `receiveOpsAdmission_spec` — the call returns, and its result says what it committed;
* `reconcilePasses_spec` — so do the passes over the buffer.
-/

namespace Irokle

open Std Outcome Causal List ExtTreeMap ExtTreeSet

variable {E : Env} {V : View} {K : Prop} {P Q : Op → Prop} {x y op : Op} {a b : MemoryInner}
  {log log₀ log' : Oplog}
  {acc : BTreeSet OpId} {evictions : List TopicEviction} {ids : List OpId} {ops : List Op}
  {verified : BTreeSet OpId} {source : Option PeerId} {effects : Option ReceiveEffects} {d d' : Drain}

theorem LogOK.mono (h : ∀ op, P op → Q op) (L : LogOK E K P log) : LogOK E K Q log :=
  ⟨L.records, L.buffer, L.cache, fun id op hop => ⟨h op (L.pending id op hop).1, (L.pending id op hop).2⟩,
    L.waits, L.apart⟩

theorem Reported.mono (h : ∀ op, P op → Q op) (R : Reported E P a acc evictions b) :
    Reported E Q a acc evictions b :=
  { R with
    stored := fun id op hop => (R.stored id op hop).imp_left fun ⟨hid, hP⟩ => ⟨hid, h op hP⟩
    winner := fun e he => by
      obtain ⟨w, hP, hw⟩ := R.winner e he
      exact ⟨w, h w hP, hw⟩ }

theorem Buffers.weaken (h : ∀ op, P op → Q op) (B : Buffers E K P log ids log') : Buffers E K Q log ids log' :=
  ⟨B.ok.mono h, B.quiet, B.step⟩

theorem Took.weaken (h : ∀ op, P op → Q op) (T : Took E K P log ids acc evictions log') :
    Took E K Q log ids acc evictions log' := ⟨T.ok.mono h, T.reported.mono h, T.keys, T.gone, T.accepted⟩

theorem not_structural_of_deps (h : op.body.deps ≠ ∅) : isStructuralGenesis op = false := by
  rw [Bool.eq_false_iff]
  exact fun hs => h (isStructuralGenesis_iff.1 hs).2.2.2

/-- **A buffered op is admitted alone, or nothing but the buffer changes.** It commits no reset. -/
theorem takeOp_spec (V : View) (source : Option PeerId) (verified : BTreeSet OpId) (L : LogOK E K P log)
    (hP : P op) (hvalid : E.Valid op) (hdeps : op.body.deps ≠ ∅) (heff : EffectsOK effects) :
    (∃ acc log', log.admitWithRetry E V source [op] verified effects = (.ok (acc, none), log') ∧
        Took E K P log [op.id] acc [] log' ∧ log.debug <+: log'.debug ∧
        (acc = ∅ → Buffers E K P log [op.id] log' ∧
          (log.inner.ops[op.id]? = none → SetAside log'.inner.toPendingIndex op))) ∨
      ∃ e log', log.admitWithRetry E V source [op] verified effects = (.error e, log') ∧ e.Refuses True ∧
        log.debug <+: log'.debug ∧ Buffers E K P log [op.id] log' := by
  -- no op at hand is a structural genesis, so no reset can have a winner
  have L' : LogOK E K (fun x => P x ∧ isStructuralGenesis x = false) log :=
    ⟨L.records, L.buffer, L.cache, fun id x hx => by
      obtain ⟨hPx, hv, hd⟩ := L.pending id x hx
      exact ⟨⟨hPx, not_structural_of_deps hd⟩, hv, hd⟩, L.waits, L.apart⟩
  have hweak : ∀ x, P x ∧ isStructuralGenesis x = false → P x := fun _ h => h.1
  have hnone : ∀ {acc evictions log'}, Took E K (fun x => P x ∧ isStructuralGenesis x = false) log
    [op.id] acc evictions log' →
      evictions = [] := by
    intro acc evictions log' T
    refine eq_nil_iff_forall_not_mem.2 fun e he => ?_
    obtain ⟨w, ⟨-, hw⟩, hs, -⟩ := T.reported.winner e he
    rw [hw] at hs
    cases hs
  have hsingle : ∀ x ∈ [op], P x ∧ isStructuralGenesis x = false := by
    intro x hx
    rw [mem_singleton.1 hx]
    exact ⟨hP, not_structural_of_deps hdeps⟩
  have hver : ∀ x ∈ [op], x.id ∈ verified → E.Valid x := fun x hx _ => by rw [mem_singleton.1 hx]; exact hvalid
  obtain ⟨res, log', hres, hs, hdebug, hleft⟩ := admitWithRetry_spec V source L' hsingle hver heff
  cases res with
  | ok res =>
    obtain ⟨acc, ev⟩ := res
    obtain ⟨T, hquiet⟩ := hs
    have hev : ev = none := by
      have := hnone T
      cases ev with
      | none => rfl
      | some e => simp at this
    subst hev
    refine Or.inl ⟨acc, log', hres, T.weaken hweak, hdebug,
      fun h => ⟨(hquiet h rfl).weaken hweak, fun hnew => ?_⟩⟩
    subst h
    exact hleft (by simp [not_structural_of_deps hdeps]) _ rfl op (by simp) hnew
  | error e =>
    have hcommitted : ∀ adm src, e ≠ .admissionCommitted adm src := by
      rintro adm src rfl
      obtain ⟨T, hne, id, hid, hunstored⟩ := hs
      have hacc : adm.accepted ≠ ∅ := fun h => hne h (hnone T)
      obtain ⟨id', hid'⟩ := BTreeSet.exists_mem_of_ne_empty hacc
      obtain ⟨-, x, hx⟩ := T.reported.fresh id' hid'
      have h1 := mem_singleton.1 (T.accepted id' hid')
      have h2 := mem_singleton.1 hid
      rw [h1, ← h2, hunstored] at hx
      cases hx
    refine Or.inr ⟨e, log', hres, ?_, hdebug, Buffers.weaken hweak ?_⟩
    · cases e <;> first | trivial | exact absurd rfl (hcommitted _ _)
    · cases e <;> first | exact hs | exact absurd rfl (hcommitted _ _)

/-! ## The loop -/

/-- What holds of the flow a round ends with. -/
def Flow.Post (C D : Drain → Oplog → Prop) (F : Error → Drain → Oplog → Prop) : Flow → Prop
  | .continue d log => C d log
  | .done d log => D d log
  | .fail e d log => F e d log

theorem Flow.Post.mono {C C' D D' : Drain → Oplog → Prop} {F F' : Error → Drain → Oplog → Prop} {flow : Flow}
    (h : flow.Post C D F) (hC : ∀ d log, C d log → C' d log) (hD : ∀ d log, D d log → D' d log)
    (hF : ∀ e d log, F e d log → F' e d log) : flow.Post C' D' F' := by
  cases flow with
  | «continue» d log => exact hC d log h
  | done d log => exact hD d log h
  | fail e d log => exact hF e d log h

/-- The rule of the loop: rounds that keep an invariant and lower a measure end in time. -/
theorem drainLoop_rule {I D : Drain → Oplog → Prop} {F : Error → Drain → Oplog → Prop} {μ : Drain → Oplog → ℕ}
    (hround : ∀ d log, I d log →
      (drainRound E V verified effects d log).Post (fun d' log' => I d' log' ∧ μ d' log' < μ d log) D F) :
    ∀ fuel d log, I d log → μ d log < fuel → ∃ res d' log', drainLoop E V verified effects fuel d log =
      some (res, d', log') ∧ match res with
      | .ok () => D d' log'
      | .error e => F e d' log' := by
  intro fuel
  induction fuel with
  | zero => intro d log _ h; exact absurd h (Nat.not_lt_zero _)
  | succ fuel ih =>
    intro d log hI hμ
    have h := hround d log hI
    unfold drainLoop
    cases hflow : drainRound E V verified effects d log with
    | «continue» d' log' =>
      rw [hflow] at h
      exact ih d' log' h.1 (by have := h.2; omega)
    | done d' log' => rw [hflow] at h; exact ⟨.ok (), d', log', rfl, h⟩
    | fail e d' log' => rw [hflow] at h; exact ⟨.error e, d', log', rfl, h⟩

/-- The ids of the queued ops. -/
def queueIds (queue : List Queued) : List OpId := queue.flatMap fun q => q.ops.map Op.id

/-- A queued batch is one buffered op. -/
def Queued.Single (E : Env) (P : Op → Prop) (q : Queued) (op : Op) : Prop :=
  q.fromPending = true ∧ q.ops = [op] ∧ P op ∧ E.Valid op ∧ op.body.deps ≠ ∅

/-- The ids that can still be admitted: the buffered and the queued ones. -/
def Drain.tracked (d : Drain) (log : Oplog) : Finset OpId :=
  (log.inner.pendingRecords.keys ++ queueIds d.queue).toFinset

/-- The ready ids a cursor has not passed. -/
def readyAfter (p : PendingIndex) (cursor : Option OpId) : List OpId :=
  p.pendingReady.toList.filter fun id => match cursor with
    | some after => decide (after < id)
    | none => true

/-- The loop after its caller's batch: the log is sound, the report is exact, and the queue holds
single buffered ops. All it can still admit and all it admitted is in `pool`. -/
structure DrainOK (E : Env) (K : Prop) (P : Op → Prop) (log₀ : Oplog) (pool : Finset OpId) (d : Drain)
    (log : Oplog) : Prop where
  ok : LogOK E K P log
  reported : Reported E P log₀.inner d.admitted.accepted d.admitted.evictions log.inner
  quiet : d.admitted.accepted = ∅ → d.admitted.evictions = [] → Quiet log₀.inner log.inner
  queue : ∀ q ∈ d.queue, ∃ op, q.Single E P op
  nodup : (queueIds d.queue).Nodup
  tracked : d.tracked log ⊆ pool
  accepted : ∀ id ∈ d.admitted.accepted, id ∈ pool ∧ id ∉ d.tracked log

/-- What is left of the pass: ready ids ahead of the cursor, and queued ops. -/
def Drain.rest (d : Drain) (log : Oplog) : ℕ :=
  2 * (readyAfter log.inner.toPendingIndex d.cursor).length + d.queue.length

/-- Passes and windows that must be begun again. -/
def Drain.flags (d : Drain) : ℕ := d.windowAdmitted.toNat + d.passAdmitted.toNat

/-- The measure of the loop: ids to admit, then passes to begin again, then the rest of the pass. -/
def Drain.measure (S : ℕ) (d : Drain) (log : Oplog) : ℕ :=
  (d.tracked log).card * (3 * (3 * S + 1)) + d.flags * (3 * S + 1) + d.rest log

theorem Drain.flags_le (d : Drain) : d.flags ≤ 2 := by
  unfold Drain.flags
  cases d.windowAdmitted <;> cases d.passAdmitted <;> decide

theorem Drain.mem_tracked {id : OpId} :
    id ∈ d.tracked log ↔ (∃ rec, log.inner.pendingRecords[id]? = some rec) ∨ id ∈ queueIds d.queue := by
  unfold Drain.tracked
  rw [mem_toFinset, mem_append, ExtTreeMap.mem_keys, mem_iff_isSome_getElem?, Option.isSome_iff_exists]

variable {pool : Finset OpId}

theorem queueIds_cons (q : Queued) (queue : List Queued) :
    queueIds (q :: queue) = q.ops.map Op.id ++ queueIds queue := rfl

theorem length_queueIds {queue : List Queued} (h : ∀ q ∈ queue, ∃ op, q.Single E P op) :
    (queueIds queue).length = queue.length := by
  induction queue with
  | nil => rfl
  | cons q queue ih =>
    obtain ⟨op, -, hops, -⟩ := h q mem_cons_self
    rw [queueIds_cons, hops, length_append, ih fun q hq => h q (mem_cons_of_mem _ hq)]
    simp [Nat.add_comm]

theorem DrainOK.size (D : DrainOK E K P log₀ pool d log) : (d.tracked log).card ≤ pool.card :=
  Finset.card_le_card D.tracked

theorem DrainOK.rest_le (D : DrainOK E K P log₀ pool d log) : d.rest log ≤ 3 * pool.card := by
  have hready : (readyAfter log.inner.toPendingIndex d.cursor).length ≤ (d.tracked log).card := by
    have hnodup : (readyAfter log.inner.toPendingIndex d.cursor).Nodup := (BTreeSet.nodup_toList _).filter _
    rw [← toFinset_card_of_nodup hnodup]
    refine Finset.card_le_card fun id hid => ?_
    have hmem : id ∈ log.inner.pendingReady := mem_toList.1 (List.mem_filter.1 (mem_toFinset.1 hid)).1
    obtain ⟨rec, hrec, -⟩ := (D.ok.buffer.ok.ready id).1 hmem
    exact Drain.mem_tracked.2 (Or.inl ⟨rec, hrec⟩)
  have hqueue : d.queue.length ≤ (d.tracked log).card := by
    rw [← length_queueIds D.queue, ← toFinset_card_of_nodup D.nodup]
    exact Finset.card_le_card fun id hid => Drain.mem_tracked.2 (Or.inr (mem_toFinset.1 hid))
  have hsize := D.size
  unfold Drain.rest
  omega

/-- Fewer ids to admit outweigh everything else. -/
theorem DrainOK.measure_lt_of_tracked (D' : DrainOK E K P log₀ pool d' log')
    (h : (d'.tracked log').card < (d.tracked log).card) :
    d'.measure pool.card log' < d.measure pool.card log := by
  have hrest := D'.rest_le
  have hflags := d'.flags_le
  have h1 : d'.flags * (3 * pool.card + 1) ≤ 2 * (3 * pool.card + 1) := Nat.mul_le_mul_right _ hflags
  have h2 : ((d'.tracked log').card + 1) * (3 * (3 * pool.card + 1)) ≤
    (d.tracked log).card * (3 * (3 * pool.card + 1)) :=
    Nat.mul_le_mul_right _ h
  rw [Nat.add_mul, Nat.one_mul] at h2
  unfold Drain.measure
  omega

/-- A pass fewer to begin again outweighs the rest of the pass. -/
theorem DrainOK.measure_lt_of_flags (D' : DrainOK E K P log₀ pool d' log')
    (h : (d'.tracked log').card ≤ (d.tracked log).card) (hf : d'.flags < d.flags) :
    d'.measure pool.card log' < d.measure pool.card log := by
  have hrest := D'.rest_le
  have h1 : (d'.flags + 1) * (3 * pool.card + 1) ≤ d.flags * (3 * pool.card + 1) := Nat.mul_le_mul_right _ hf
  have h2 : (d'.tracked log').card * (3 * (3 * pool.card + 1)) ≤
    (d.tracked log).card * (3 * (3 * pool.card + 1)) := Nat.mul_le_mul_right _ h
  rw [Nat.add_mul, Nat.one_mul] at h1
  unfold Drain.measure
  omega

theorem Drain.measure_lt_of_rest (h : (d'.tracked log').card ≤ (d.tracked log).card) (hf : d'.flags = d.flags)
    (hrest : d'.rest log' < d.rest log) : d'.measure pool.card log' < d.measure pool.card log := by
  have h2 : (d'.tracked log').card * (3 * (3 * pool.card + 1)) ≤
    (d.tracked log).card * (3 * (3 * pool.card + 1)) := Nat.mul_le_mul_right _ h
  unfold Drain.measure
  rw [hf]
  omega

/-! ## One queued op -/

/-- The loop after its first queued op left the records alone. -/
structure Popped (d : Drain) (queue : List Queued) (d' : Drain) : Prop where
  queue : d'.queue = queue
  cursor : d'.cursor = d.cursor
  flags : d'.flags = d.flags
  accepted : d'.admitted.accepted = d.admitted.accepted
  evictions : d'.admitted.evictions = d.admitted.evictions

variable {q : Queued} {queue : List Queued}

theorem readyAfter_length_le {p p' : PendingIndex} (h : ∀ id, id ∈ p'.pendingReady → id ∈ p.pendingReady)
    (cursor : Option OpId) :
    (readyAfter p' cursor).length ≤ (readyAfter p cursor).length := by
  refine ((BTreeSet.nodup_toList _).filter _).subperm ?_ |>.length_le
  intro id hid
  obtain ⟨hmem, hafter⟩ := List.mem_filter.1 hid
  exact List.mem_filter.2 ⟨mem_toList.2 (h id (mem_toList.1 hmem)), hafter⟩

/-- Taking the first queued op tracks no new id. -/
theorem Drain.tracked_pop (hq : d.queue = q :: queue) (hops : q.ops = [op]) (hq' : d'.queue = queue)
    (hkeys : ∀ (k : OpId) rec', log'.inner.pendingRecords[k]? = some rec' →
      (∃ rec, log.inner.pendingRecords[k]? = some rec) ∨ k ∈ [op.id]) : d'.tracked log' ⊆ d.tracked log := by
  intro k hk
  rw [Drain.mem_tracked] at hk ⊢
  rw [hq, queueIds_cons, hops, map_singleton]
  rcases hk with ⟨rec, hrec⟩ | hk
  · exact (hkeys k rec hrec).imp_right fun h => mem_append_left _ h
  · rw [hq'] at hk
    exact Or.inr (mem_append_right _ hk)

theorem DrainOK.popped (D : DrainOK E K P log₀ pool d log) (hq : d.queue = q :: queue) (hops : q.ops = [op])
    (B : Buffers E K P log [op.id] log') (hd : Popped d queue d') :
    DrainOK E K P log₀ pool d' log' ∧ d'.measure pool.card log' < d.measure pool.card log := by
  have hsub : d'.tracked log' ⊆ d.tracked log := Drain.tracked_pop hq hops hd.queue B.step.keys
  have hnodup := D.nodup
  rw [hq, queueIds_cons] at hnodup
  refine ⟨⟨B.ok, ?_, fun hacc hev => ?_, fun q' hq' => D.queue q' ?_, ?_, hsub.trans D.tracked, ?_⟩,
    Drain.measure_lt_of_rest (Finset.card_le_card hsub) hd.flags ?_⟩
  · rw [hd.accepted, hd.evictions]
    exact D.reported.quiet B.quiet
  · rw [hd.accepted] at hacc
    rw [hd.evictions] at hev
    exact (D.quiet hacc hev).trans B.quiet
  · rw [hq]
    exact mem_cons_of_mem _ (hd.queue ▸ hq')
  · rw [hd.queue]
    exact (nodup_append.1 hnodup).2.1
  · rw [hd.accepted]
    exact fun id hid => (D.accepted id hid).imp_right fun h hmem => h (hsub hmem)
  · have hready := readyAfter_length_le B.step.ready d.cursor
    unfold Drain.rest
    rw [hd.cursor, hd.queue, hq, length_cons]
    omega

/-- A buffered op was admitted. -/
theorem DrainOK.took {acc : BTreeSet OpId} (R₀ : RecordsOK E log₀.inner.toRecords)
    (D : DrainOK E K P log₀ pool d log) (hq : d.queue = q :: queue) (hops : q.ops = [op])
    (T : Took E K P log [op.id] acc [] log') (hacc : acc ≠ ∅) :
    DrainOK E K P log₀ pool ({ d with queue := queue }.record acc none) log' ∧
      ({ d with queue := queue }.record acc none).measure pool.card log' < d.measure pool.card log := by
  have hsub : ({ d with queue := queue }.record acc none).tracked log' ⊆ d.tracked log :=
    Drain.tracked_pop hq hops rfl T.keys
  have hnodup := D.nodup
  rw [hq, queueIds_cons, hops, map_singleton] at hnodup
  have hid : op.id ∈ acc := by
    obtain ⟨id, hid⟩ := BTreeSet.exists_mem_of_ne_empty hacc
    rwa [mem_singleton.1 (T.accepted id hid)] at hid
  have hmem : op.id ∈ d.tracked log :=
    Drain.mem_tracked.2 (Or.inr (by rw [hq, queueIds_cons, hops]; exact mem_cons_self))
  -- the op left the buffer, and it is not queued a second time
  have hleft : op.id ∉ ({ d with queue := queue }.record acc none).tracked log' := by
    intro h
    rcases Drain.mem_tracked.1 h with ⟨rec, hrec⟩ | h
    · rw [T.gone op.id hid] at hrec
      cases hrec
    · exact (nodup_append.1 hnodup).2.2 op.id mem_cons_self op.id h rfl
  have hstrict : ({ d with queue := queue }.record acc none).tracked log' ⊂ d.tracked log :=
    Finset.ssubset_iff_of_subset hsub |>.2 ⟨op.id, hmem, hleft⟩
  have D' : DrainOK E K P log₀ pool ({ d with queue := queue }.record acc none) log' := by
    refine ⟨T.ok, ?_, fun h _ => ?_, fun q' hq' => D.queue q' (hq ▸ mem_cons_of_mem _ hq'),
      (nodup_append.1 hnodup).2.1, hsub.trans D.tracked, fun id h => ?_⟩
    · show Reported E P log₀.inner (d.admitted.accepted ∪ acc) (d.admitted.evictions ++ []) log'.inner
      rw [append_nil]
      exact D.reported.trans R₀ T.ok.records T.reported
    · have hmem : op.id ∈ d.admitted.accepted ∪ acc := ExtTreeSet.mem_union_iff.2 (Or.inr hid)
      rw [show d.admitted.accepted ∪ acc = ∅ from h] at hmem
      simp at hmem
    · rcases ExtTreeSet.mem_union_iff.1 (show id ∈ d.admitted.accepted ∪ acc from h) with h | h
      · exact (D.accepted id h).imp_right fun h' hmem => h' (hsub hmem)
      · rw [mem_singleton.1 (T.accepted id h)]
        exact ⟨D.tracked hmem, hleft⟩
  exact ⟨D', D'.measure_lt_of_tracked (Finset.card_lt_card hstrict)⟩

theorem positionImpossible_post {r : Records} :
    Post (positionImpossible r op) (fun _ => True) (Error.Refuses True) := by
  have hnext : ∀ n, Post (checkedNext n) (fun _ => True) (Error.Refuses True) := by
    intro n
    unfold checkedNext
    split
    · exact Post.ok trivial
    · exact Post.error trivial
  unfold positionImpossible
  dsimp only
  split
  · exact Post.pure trivial
  · split
    · exact Post.pure trivial
    · split
      · split
        · split
          · exact Post.pure trivial
          · refine (hnext _).bind fun _ _ => ?_
            split <;> exact Post.pure trivial
        · exact Post.pure trivial
      · exact Post.pure trivial

theorem pendingVerdict_post {r : Records} {e : Error} :
    Post (pendingVerdict r op e) (fun _ => True) (Error.Refuses True) := by
  unfold pendingVerdict
  dsimp only
  split
  · exact Post.pure trivial
  · split <;> first | exact Post.pure trivial | exact positionImpossible_post.bind fun _ _ => Post.pure trivial

/-- Rejecting a buffered op takes ops out of the buffer, or changes nothing. -/
theorem rejectPendingSubtree_spec (L : LogOK E K P log) (id : OpId) :
    (∃ e log', log.rejectPendingSubtree E id = (.error e, log') ∧ e.Refuses True ∧ Buffers E K P log [] log') ∨
      ∃ log', log.rejectPendingSubtree E id = (.ok (), log') ∧ Buffers E K P log [] log' := by
  unfold Oplog.rejectPendingSubtree
  rcases L.buffer.reject (E.reserve log.writes 0) id with ⟨e, hres, h⟩ | ⟨k, p', h, B, -, hsub, hops⟩
  · rw [h]
    refine Or.inl ⟨e, _, rfl, (Env.reserve_fromFault hres).refuses, L.shrink L.buffer (.refl _),
      .withPending _ _, .refl _ _⟩
  · rw [h]
    refine Or.inr ⟨_, rfl, L.shrink B ⟨hsub, hops⟩, .withPending _ _,
      .of_records L.buffer.ok B.ok hsub⟩

/-- What a round must keep: the invariant, and a lower measure when it goes on. -/
def Rounds (E : Env) (K : Prop) (P : Op → Prop) (log₀ : Oplog) (pool : Finset OpId) (bound : ℕ)
    (flow : Flow) : Prop :=
  flow.Post (fun d' log' => DrainOK E K P log₀ pool d' log' ∧ d'.measure pool.card log' < bound)
    (DrainOK E K P log₀ pool) fun e d' log' => e.Refuses True ∧ DrainOK E K P log₀ pool d' log'

/-- A refused buffered op is dropped or held back. -/
theorem failBatch_spec {e : Error} (D : DrainOK E K P log₀ pool d log) (hq : d.queue = q :: queue)
    (hs : q.Single E P op) (B : Buffers E K P log [op.id] log') :
    Rounds E K P log₀ pool (d.measure pool.card log) (failBatch E { d with queue := queue } log' q e) := by
  obtain ⟨hpending, hops, -⟩ := hs
  have hpop : Popped d queue { d with queue := queue } := ⟨rfl, rfl, rfl, rfl, rfl⟩
  unfold failBatch
  rw [if_pos hpending, hops]
  dsimp only
  have hverdict : Post (pendingVerdict log'.inner.toRecords op e) _ _ := pendingVerdict_post
  cases hv : pendingVerdict log'.inner.toRecords op e with
  | error e' => exact ⟨hverdict.of_error hv, (D.popped hq hops B hpop).1⟩
  | ok verdict =>
    have B' := B.logged (log'.debug ++ [(op.id, e)])
    cases verdict with
    | reject =>
      dsimp only
      rcases rejectPendingSubtree_spec B'.ok op.id with ⟨e', log₁, h, he', B₁⟩ | ⟨log₁, h, B₁⟩
      · rw [h]
        exact ⟨he', (D.popped hq hops (B'.trans B₁) hpop).1⟩
      · rw [h]
        exact D.popped hq hops (B'.trans B₁) hpop
    | retain =>
      dsimp only
      split
      · have hpop' : Popped d queue { d with
            queue := queue
            heldBack := d.heldBack.insert op.id
            admitted := { d.admitted with readyRemaining := true } } := ⟨rfl, rfl, rfl, rfl, rfl⟩
        exact (D.popped hq hops B' hpop').1
      · exact D.popped hq hops B' ⟨rfl, rfl, rfl, rfl, rfl⟩

/-- Taking the next queued op keeps the invariant; with an empty queue nothing happens. -/
theorem drainQueue_spec (V : View) (verified : BTreeSet OpId) (R₀ : RecordsOK E log₀.inner.toRecords)
    (heff : EffectsOK effects) (D : DrainOK E K P log₀ pool d log) :
    d.queue = [] ∧ drainQueue E V verified effects d log = .continue d log ∨
      Rounds E K P log₀ pool (d.measure pool.card log) (drainQueue E V verified effects d log) := by
  unfold drainQueue
  cases hq : d.queue with
  | nil => exact Or.inl ⟨rfl, rfl⟩
  | cons q queue =>
    right
    obtain ⟨op, hs⟩ := D.queue q (hq ▸ mem_cons_self)
    have ⟨_, hops, hP, hvalid, hdeps⟩ := hs
    dsimp only
    rw [hops]
    rcases takeOp_spec V q.source verified D.ok hP hvalid hdeps heff with
      ⟨acc, log', h, T, -, hquiet⟩ | ⟨e, log', h, -, -, B⟩
    · rw [h]
      by_cases hacc : acc = ∅
      · subst hacc
        refine D.popped hq hops (hquiet rfl).1 ⟨rfl, rfl, ?_, ?_, ?_⟩
        · simp [Drain.record, Drain.flags]
        · exact ext_mem fun id => by simp [Drain.record]
        · simp [Drain.record]
      · exact D.took R₀ hq hops T hacc
    · rw [h]
      exact failBatch_spec D hq hs B

/-- The entry of a ready id is its buffered op. -/
theorem entry_of_ready {p : PendingIndex} (ok : PendingOK p) {id : OpId} (h : id ∈ p.pendingReady) :
    ∃ e, p.entry id = some e ∧ e.2.id = id ∧ p.pendingOps[id]? = some e.2 := by
  obtain ⟨rec, hrec, -⟩ := (ok.ready id).1 h
  obtain ⟨op, hop, hid, -⟩ := ok.opOf id rec hrec
  exact ⟨(rec.source, op), by simp [PendingIndex.entry, hrec, hop], hid, hop⟩

theorem readyPendingAfter_eq (p : PendingIndex) (cursor : Option OpId) (limit : ℕ) :
    p.readyPendingAfter cursor limit = ((readyAfter p cursor).take limit).filterMap p.entry := by
  cases cursor <;> rfl

/-- A slice of the ready index holds the next ready ids, in order. -/
theorem readyPendingAfter_ids {p : PendingIndex} (ok : PendingOK p) (cursor : Option OpId) (limit : ℕ) :
    (p.readyPendingAfter cursor limit).map (fun e => e.2.id) = (readyAfter p cursor).take limit := by
  have key : ∀ l : List OpId, (∀ id ∈ l, id ∈ p.pendingReady) →
      (l.filterMap p.entry).map (fun e => e.2.id) = l := by
    intro l
    induction l with
    | nil => simp
    | cons id l ih =>
      intro h
      obtain ⟨e, he, hid, -⟩ := entry_of_ready ok (h id mem_cons_self)
      rw [filterMap_cons_some he, map_cons, hid, ih fun x hx => h x (mem_cons_of_mem _ hx)]
  rw [readyPendingAfter_eq]
  refine key _ fun id hid => ?_
  exact mem_toList.1 (List.mem_filter.1 (mem_of_mem_take hid)).1

/-- Past the last id of a slice lie the ready ids that the slice did not hold. -/
theorem readyAfter_length_last {p : PendingIndex} {cursor : Option OpId} {limit : ℕ} {last : OpId}
    (h : ((readyAfter p cursor).take limit).getLast? = some last) :
    (readyAfter p (some last)).length + ((readyAfter p cursor).take limit).length ≤
      (readyAfter p cursor).length := by
  have hsorted : (readyAfter p cursor).Pairwise (· < ·) :=
    (ordered_toList.imp fun h => compare_lt_iff_lt.1 h).filter _
  obtain ⟨init, hinit⟩ := getLast?_eq_some_iff.1 h
  have hle : ∀ id ∈ (readyAfter p cursor).take limit, id ≤ last := by
    intro id hid
    have htake := hsorted.sublist (take_sublist limit _)
    rw [hinit] at hid htake
    rcases mem_append.1 hid with hid | hid
    · exact ((pairwise_append.1 htake).2.2 id hid last mem_cons_self).le
    · exact (mem_singleton.1 hid).le
  have hlast : last ∈ readyAfter p cursor :=
    mem_of_mem_take (by rw [hinit]; exact mem_append_right _ mem_cons_self)
  have hsub : readyAfter p (some last) ⊆ (readyAfter p cursor).drop limit := by
    intro id hid
    obtain ⟨hmem, hafter⟩ := List.mem_filter.1 hid
    have hgt : last < id := by simpa using hafter
    have hid' : id ∈ readyAfter p cursor := by
      refine List.mem_filter.2 ⟨hmem, ?_⟩
      have hcursor := (List.mem_filter.1 hlast).2
      cases cursor with
      | none => rfl
      | some after =>
        have hlt : after < last := by simpa using hcursor
        simpa using hlt.trans hgt
    rw [← take_append_drop limit (readyAfter p cursor), mem_append] at hid'
    exact hid'.resolve_left fun hid' => absurd hgt (hle id hid').not_gt
  have hnodup : (readyAfter p (some last)).Nodup := (BTreeSet.nodup_toList _).filter _
  have hlength := (hnodup.subperm hsub).length_le
  have htotal : ((readyAfter p cursor).take limit).length + ((readyAfter p cursor).drop limit).length =
      (readyAfter p cursor).length := by
    rw [← length_append, take_append_drop]
  omega

/-- The ops of a slice as the loop queues them. -/
def queueSlice (slice : List (PeerId × Op)) : List Queued := slice.map fun e => ⟨some e.1, [e.2], true⟩

theorem queueIds_queueSlice (slice : List (PeerId × Op)) :
    queueIds (queueSlice slice) = slice.map fun e => e.2.id := by
  induction slice with
  | nil => rfl
  | cons e slice ih =>
    show [e.2.id] ++ queueIds (queueSlice slice) = _
    rw [ih]
    rfl

/-- **Loading a slice** moves ready ops into the queue and the cursor past them. -/
theorem DrainOK.load {last : PeerId × Op} {drained : ℕ} (D : DrainOK E K P log₀ pool d log) (hq : d.queue = [])
    (hlast : (log.inner.readyPendingAfter d.cursor readySlice).getLast? = some last)
    (fresh : PeerId × Op → Bool) :
    DrainOK E K P log₀ pool { d with
        cursor := some last.2.id
        drained := drained
        queue := queueSlice ((log.inner.readyPendingAfter d.cursor readySlice).filter fresh) } log ∧
      Drain.measure pool.card { d with
        cursor := some last.2.id
        drained := drained
        queue := queueSlice ((log.inner.readyPendingAfter d.cursor readySlice).filter fresh) } log <
          d.measure pool.card log := by
  have hids := readyPendingAfter_ids D.ok.buffer.ok d.cursor readySlice
  set slice := log.inner.readyPendingAfter d.cursor readySlice with hslice
  have hmem : ∀ e ∈ slice, log.inner.pendingOps[e.2.id]? = some e.2 ∧ ∃ rec, log.inner.pendingRecords[e.2.id]? =
      some rec := by
    intro e he
    rw [hslice, readyPendingAfter_eq] at he
    obtain ⟨id, hid, hentry⟩ := List.mem_filterMap.1 he
    have hready : id ∈ log.inner.pendingReady := mem_toList.1 (List.mem_filter.1 (mem_of_mem_take hid)).1
    obtain ⟨e', he', hid', hop⟩ := entry_of_ready D.ok.buffer.ok hready
    cases he'.symm.trans hentry
    obtain ⟨rec, hrec, -⟩ := (D.ok.buffer.ok.ready id).1 hready
    rw [hid']
    exact ⟨hop, rec, hrec⟩
  have hsub : Drain.tracked { d with
      cursor := some last.2.id
      drained := drained
      queue := queueSlice (slice.filter fresh) } log ⊆ d.tracked log := by
    intro id hid
    rw [Drain.mem_tracked] at hid ⊢
    refine Or.inl (hid.elim (fun h => h) fun hid => ?_)
    rw [queueIds_queueSlice] at hid
    obtain ⟨e, he, rfl⟩ := List.mem_map.1 hid
    exact (hmem e (List.mem_filter.1 he).1).2
  refine ⟨⟨D.ok, D.reported, D.quiet, fun q hq => ?_, ?_, hsub.trans D.tracked,
      fun id hid => (D.accepted id hid).imp_right fun h hmem => h (hsub hmem)⟩,
    Drain.measure_lt_of_rest (Finset.card_le_card hsub) rfl ?_⟩
  · obtain ⟨e, he, rfl⟩ := List.mem_map.1 hq
    exact ⟨e.2, rfl, rfl, D.ok.pending _ _ (hmem e (List.mem_filter.1 he).1).1⟩
  · have hnodup : (slice.map fun e => e.2.id).Nodup := by
      rw [hids]
      exact ((BTreeSet.nodup_toList _).filter _).sublist (take_sublist _ _)
    rw [queueIds_queueSlice]
    exact hnodup.sublist (filter_sublist.map _)
  · have hlast' : ((readyAfter log.inner.toPendingIndex d.cursor).take readySlice).getLast? = some last.2.id := by
      rw [← hids, getLast?_map, hlast]
      rfl
    have hlength := readyAfter_length_last hlast'
    have hfresh : (slice.filter fresh).length ≤ slice.length := length_filter_le _ _
    have hslice' : ((readyAfter log.inner.toPendingIndex d.cursor).take readySlice).length = slice.length := by
      rw [← hids, length_map]
    have hpos : slice.length ≠ 0 := by
      intro h0
      rw [length_eq_zero_iff.1 h0] at hlast
      cases hlast
    simp only [Drain.rest, hq, length_nil, queueSlice, length_map]
    omega

/-- **One round** keeps the invariant, and lowers the measure when the loop goes on. -/
theorem drainRound_spec (V : View) (verified : BTreeSet OpId) (R₀ : RecordsOK E log₀.inner.toRecords)
    (heff : EffectsOK effects) (D : DrainOK E K P log₀ pool d log) :
    Rounds E K P log₀ pool (d.measure pool.card log) (drainRound E V verified effects d log) := by
  unfold drainRound
  split
  · rename_i hempty
    have hq : d.queue = [] := List.isEmpty_iff.1 hempty
    split
    · split
      · -- a window that admitted something begins again
        rename_i hwindow
        have D' : DrainOK E K P log₀ pool
            { d with drained := 0, windowAdmitted := false, cursor := none, passAdmitted := false } log :=
          { D with }
        refine ⟨D', D'.measure_lt_of_flags le_rfl ?_⟩
        simp [Drain.flags, hwindow]
      · exact { D with }
    · dsimp only
      split
      · split
        · -- so does a pass
          rename_i hpass
          have D' : DrainOK E K P log₀ pool { d with cursor := none, passAdmitted := false } log := { D with }
          refine ⟨D', D'.measure_lt_of_flags le_rfl ?_⟩
          simp [Drain.flags, hpass]
        · exact D
      · rename_i last hlast
        obtain ⟨D₁, hlt⟩ := D.load hq hlast fun e => decide (e.2.id ∉ d.heldBack)
        rcases drainQueue_spec V verified R₀ heff D₁ with ⟨-, h⟩ | h
        · unfold queueSlice at h
          rw [h]
          exact ⟨D₁, hlt⟩
        · exact Flow.Post.mono h (fun d' log' h => ⟨h.1, h.2.trans hlt⟩) (fun _ _ h => h) fun _ _ _ h => h
  · rename_i hne
    rcases drainQueue_spec V verified R₀ heff D with ⟨hq, -⟩ | h
    · rw [hq] at hne
      exact absurd rfl hne
    · exact h

/-! ## The whole call -/

/-- What a call reports: a success and a partial commit say exactly what was committed, and any other
error means that no record changed. -/
def Receives (E : Env) (K : Prop) (P : Op → Prop) (log : Oplog) (result : Result Admitted)
    (log' : Oplog) : Prop :=
  LogOK E K P log' ∧ match result with
  | .ok admitted => Reported E P log.inner admitted.accepted admitted.evictions log'.inner ∧
      (admitted.accepted = ∅ → admitted.evictions = [] → Quiet log.inner log'.inner)
  | .error (.admissionCommitted admitted _) =>
      Reported E P log.inner admitted.accepted admitted.evictions log'.inner ∧
        (admitted.accepted = ∅ → admitted.evictions ≠ [])
  | .error _ => Quiet log.inner log'.inner

/-- Whatever a call returns, what it did to the records is reported. -/
theorem Receives.exists_reported {res : Result Admitted} (h : Receives E K P log res log') :
    ∃ accepted evictions, Reported E P log.inner accepted evictions log'.inner := by
  obtain ⟨-, hres⟩ := h
  cases res with
  | ok admitted => exact ⟨_, _, hres.1⟩
  | error e =>
    cases e
    case admissionCommitted committed source => exact ⟨_, _, hres.1⟩
    all_goals exact ⟨_, _, Quiet.reported hres⟩

/-- An error of the loop carries what was committed before it. -/
theorem DrainOK.failed {e : Error} (D : DrainOK E K P log₀ pool d log) (he : e.Refuses True) :
    Receives E K P log₀ (.error (admissionFailure d.admitted e)) log := by
  rw [admissionFailure_of_refuses he]
  split
  · rename_i hempty
    rw [Bool.and_eq_true] at hempty
    have hquiet := D.quiet (ExtTreeSet.isEmpty_iff.1 hempty.1) (List.isEmpty_iff.1 hempty.2)
    refine ⟨D.ok, ?_⟩
    cases e <;> first | exact hquiet | exact he.elim
  · rename_i hne
    rw [Bool.and_eq_true, not_and] at hne
    exact ⟨D.ok, D.reported, fun hacc hev => hne (ExtTreeSet.isEmpty_iff.2 hacc) (List.isEmpty_iff.2 hev)⟩

/-- An error of the caller's batch is passed on as it is. -/
theorem Settles.receives {e : Error} (h : Settles E K P log ids (.error e) log') :
    Receives E K P log (.error (admissionFailure ⟨∅, [], false⟩ e)) log' := by
  have hother : e.Refuses True → Buffers E K P log ids log' →
      Receives E K P log (.error (admissionFailure ⟨∅, [], false⟩ e)) log' := by
    intro he B
    have heq : admissionFailure ⟨∅, [], false⟩ e = e := admissionFailure_of_refuses he _
    rw [heq]
    refine ⟨B.ok, ?_⟩
    cases e <;> first | exact B.quiet | exact he.elim
  cases e with
  | admissionCommitted committed source =>
    obtain ⟨T, hne, -⟩ := h
    have hunion : (∅ : BTreeSet OpId) ∪ committed.accepted = committed.accepted := ext_mem fun id => by simp
    have heq : admissionFailure ⟨∅, [], false⟩ (.admissionCommitted committed source) =
        .admissionCommitted ⟨committed.accepted, committed.evictions, false⟩ source := by
      unfold admissionFailure
      dsimp only
      rw [hunion, nil_append, if_neg]
      rw [Bool.and_eq_true, not_and]
      exact fun hacc hev => hne (ExtTreeSet.isEmpty_iff.1 hacc) (List.isEmpty_iff.1 hev)
    rw [heq]
    exact ⟨T.ok, T.reported, hne⟩
  | _ => exact hother trivial h

/-- The loop ends from every state of the invariant, and its report is exact. -/
theorem drainLoop_spec (V : View) (verified : BTreeSet OpId) (R₀ : RecordsOK E log₀.inner.toRecords)
    (heff : EffectsOK effects) (D : DrainOK E K P log₀ pool d log) {fuel : ℕ}
    (hfuel : (pool.card + 1) * (9 * pool.card + 3) ≤ fuel) :
    ∃ res d' log', drainLoop E V verified effects fuel d log = some (res, d', log') ∧
      DrainOK E K P log₀ pool d' log' ∧ ∀ e, res = .error e → e.Refuses True := by
  have hmeasure : d.measure pool.card log < fuel := by
    have hrest := D.rest_le
    have h1 : d.flags * (3 * pool.card + 1) ≤ 2 * (3 * pool.card + 1) := Nat.mul_le_mul_right _ d.flags_le
    have h2 : (d.tracked log).card * (3 * (3 * pool.card + 1)) ≤ pool.card * (3 * (3 * pool.card + 1)) :=
      Nat.mul_le_mul_right _ D.size
    have h3 : (pool.card + 1) * (9 * pool.card + 3) = pool.card * (3 * (3 * pool.card + 1)) +
      3 * (3 * pool.card + 1) := by ring
    unfold Drain.measure
    omega
  obtain ⟨res, d', log', h, hres⟩ :=
    drainLoop_rule (fun d log D => drainRound_spec V verified R₀ heff D) fuel d log D hmeasure
  refine ⟨res, d', log', h, ?_⟩
  cases res with
  | ok u => exact ⟨hres, by simp⟩
  | error e =>
    refine ⟨hres.2, fun e' he' => ?_⟩
    cases he'
    exact hres.1

/-- The ids a call can admit: those buffered before it, and those of its batch. -/
def drainPool (log : Oplog) (ids : List OpId) : Finset OpId := (log.inner.pendingRecords.keys ++ ids).toFinset

theorem mem_drainPool {id : OpId} : id ∈ drainPool log ids ↔ (∃ rec, log.inner.pendingRecords[id]? = some rec) ∨
    id ∈ ids := by
  unfold drainPool
  rw [mem_toFinset, mem_append, ExtTreeMap.mem_keys, mem_iff_isSome_getElem?, Option.isSome_iff_exists]

theorem card_drainPool_le (log : Oplog) (ids : List OpId) :
    (drainPool log ids).card ≤ log.inner.pendingRecords.size + ids.length := by
  rw [← length_keys, ← length_append]
  exact toFinset_card_le _

/-- The loop after the caller's batch was taken, or with no batch to take. -/
theorem Took.drainOK (T : Took E K P log ids acc evictions log')
    (hquiet : acc = ∅ → evictions = [] → Quiet log.inner log'.inner) (hq : d.queue = [])
    (hacc : d.admitted.accepted = acc) (hev : d.admitted.evictions = evictions) :
    DrainOK E K P log (drainPool log ids) d log' where
  ok := T.ok
  reported := by rw [hacc, hev]; exact T.reported
  quiet := by rw [hacc, hev]; exact hquiet
  queue := by simp [hq]
  nodup := by rw [hq]; exact nodup_nil
  tracked := by
    intro k hk
    rcases Drain.mem_tracked.1 hk with ⟨rec, hrec⟩ | hk
    · exact mem_drainPool.2 (T.keys k rec hrec)
    · rw [hq] at hk
      cases hk
  accepted := by
    rw [hacc]
    intro id hid
    refine ⟨mem_drainPool.2 (Or.inr (T.accepted id hid)), fun hk => ?_⟩
    rcases Drain.mem_tracked.1 hk with ⟨rec, hrec⟩ | hk
    · rw [T.gone id hid] at hrec
      cases hrec
    · rw [hq] at hk
      cases hk

theorem lt_drainFuel (log : Oplog) (ops : List Op) :
    (log.inner.pendingRecords.size + ops.length + 1) * (9 * (log.inner.pendingRecords.size + ops.length) + 3) <
      drainFuel log ops := Nat.mul_lt_mul'' (by omega) (by omega)

/-- The caller's batch is the first round. -/
theorem drainLoop_start (hops : ops ≠ []) :
    drainLoop E V verified effects (drainFuel log ops) (Drain.start source ops) log =
      match log.admitWithRetry E V source ops verified effects with
      | (.ok (accepted, eviction), log') =>
        drainLoop E V verified effects (drainFuel log ops - 1)
          (Drain.record { queue := [] } accepted eviction) log'
      | (.error e, log') => some (.error e, { queue := [] }, log') := by
  have hround : drainRound E V verified effects (Drain.start source ops) log =
      drainQueue E V verified effects (Drain.start source ops) log := by
    unfold drainRound
    rw [if_neg]
    simp [Drain.start, hops]
  obtain ⟨fuel, hfuel⟩ : ∃ fuel, drainFuel log ops = fuel + 1 :=
    Nat.exists_eq_add_one_of_ne_zero (Nat.ne_zero_of_lt (lt_drainFuel log ops))
  have hstart : Drain.start source ops = { queue := [⟨source, ops, false⟩] } := by
    simp [Drain.start, hops]
  rw [hfuel, drainLoop, hround, hstart, Nat.add_sub_cancel]
  unfold drainQueue
  dsimp only
  rcases log.admitWithRetry E V source ops verified effects with ⟨_ | ⟨accepted, eviction⟩, log'⟩ <;> rfl

/-- What a call that returned did to the buffer: no id is new to it, and no accepted op is left in it. -/
structure Drained (log : Oplog) (ids : List OpId) (accepted : BTreeSet OpId) (log' : Oplog) : Prop where
  keys : ∀ (id : OpId) rec, log'.inner.pendingRecords[id]? = some rec → id ∈ drainPool log ids
  accepted : ∀ id ∈ accepted, id ∈ drainPool log ids ∧ log'.inner.pendingRecords[id]? = none

theorem DrainOK.drained (D : DrainOK E K P log (drainPool log ids) d log') :
    Drained log ids d.admitted.accepted log' where
  keys id rec hrec := D.tracked (Drain.mem_tracked.2 (Or.inl ⟨rec, hrec⟩))
  accepted id hid := by
    refine ⟨(D.accepted id hid).1, Option.eq_none_iff_forall_ne_some.2 fun rec hrec => (D.accepted id hid).2 ?_⟩
    exact Drain.mem_tracked.2 (Or.inl ⟨rec, hrec⟩)

/-- **A receive returns, and reports exactly what it committed.** -/
theorem receiveOpsAdmission_spec (V : View) (source : Option PeerId) (L : LogOK E K P log) (hP : ∀ op ∈ ops, P op)
    (hver : ∀ op ∈ ops, op.id ∈ verified → E.Valid op) (heff : EffectsOK effects) :
    ∃ res log', receiveOpsAdmission E V verified effects log source ops = some (res, log') ∧
      Receives E K P log res log' ∧ ∀ admitted, res = .ok admitted →
        Drained log (ops.map Op.id) admitted.accepted log' := by
  -- from a state of the invariant on, whatever the first round was
  have hloop : ∀ {d log₁ fuel}, DrainOK E K P log (drainPool log (ops.map Op.id)) d log₁ →
    drainFuel log ops - 1 ≤ fuel →
      ∃ res d' log', drainLoop E V verified effects fuel d log₁ = some (res, d', log') ∧
        Receives E K P log (match res with
          | .ok () => .ok d'.admitted
          | .error e => .error (admissionFailure d'.admitted e)) log' ∧
        (res = .ok () → Drained log (ops.map Op.id) d'.admitted.accepted log') := by
    intro d log₁ fuel D hfuel
    have hcard := card_drainPool_le log (ops.map Op.id)
    rw [length_map] at hcard
    have hle : ((drainPool log (ops.map Op.id)).card + 1) * (9 * (drainPool log (ops.map Op.id)).card + 3) ≤
      fuel :=
      (Nat.mul_le_mul (by omega) (by omega)).trans ((Nat.le_sub_one_of_lt (lt_drainFuel log ops)).trans hfuel)
    obtain ⟨res, d', log', h, D', he⟩ := drainLoop_spec V verified L.records heff D hle
    refine ⟨res, d', log', h, ?_, fun _ => D'.drained⟩
    cases res with
    | ok u => exact ⟨D'.ok, D'.reported, D'.quiet⟩
    | error e => exact D'.failed (he e rfl)
  have hstart : ∃ res d' log', drainLoop E V verified effects (drainFuel log ops) (Drain.start source ops) log =
    some (res, d', log') ∧
        Receives E K P log (match res with
          | .ok () => .ok d'.admitted
          | .error e => .error (admissionFailure d'.admitted e)) log' ∧
        (res = .ok () → Drained log (ops.map Op.id) d'.admitted.accepted log') := by
    by_cases hops : ops = []
    · subst hops
      have D : DrainOK E K P log (drainPool log []) (Drain.start source []) log :=
        (Buffers.refl L _).took.drainOK (fun _ _ => .refl _) rfl rfl rfl
      exact hloop D (Nat.sub_le _ _)
    · rw [drainLoop_start hops]
      obtain ⟨res, log₁, h, hs, -⟩ := admitWithRetry_spec V source L hP hver heff
      rw [h]
      cases res with
      | error e => exact ⟨.error e, _, log₁, rfl, hs.receives, by simp⟩
      | ok res =>
        obtain ⟨acc, ev⟩ := res
        obtain ⟨T, hquiet⟩ := hs
        have D : DrainOK E K P log (drainPool log (ops.map Op.id))
            (Drain.record { queue := [] } acc ev) log₁ :=
          T.drainOK (fun h1 h2 => (hquiet h1 h2).quiet) rfl (ext_mem fun id => by simp [Drain.record])
            (by simp [Drain.record])
        exact hloop D le_rfl
  obtain ⟨res, d', log', h, hres, hdrained⟩ := hstart
  unfold receiveOpsAdmission
  rw [h]
  cases res with
  | ok u =>
    refine ⟨_, _, rfl, hres, fun admitted hadmitted => ?_⟩
    cases hadmitted
    exact hdrained rfl
  | error e => exact ⟨_, _, rfl, hres, by simp⟩

/-- An error of the caller's batch ends the call. -/
theorem receiveOpsAdmission_refused {e : Error} (hops : ops ≠ [])
    (h : log.admitWithRetry E V source ops verified effects = (.error e, log')) :
    receiveOpsAdmission E V verified effects log source ops =
      some (.error (admissionFailure ⟨∅, [], false⟩ e), log') := by
  unfold receiveOpsAdmission
  rw [drainLoop_start hops, h]

/-- A pass that accepted something leaves fewer ops in the buffer. -/
theorem Drained.card_lt {acc : BTreeSet OpId} (h : Drained log [] acc log') (hacc : acc ≠ ∅) :
    (drainPool log' []).card < (drainPool log []).card := by
  have hleft : ∀ k ∈ drainPool log' [], ∃ rec, log'.inner.pendingRecords[k]? = some rec := fun k hk =>
    (mem_drainPool.1 hk).resolve_right not_mem_nil
  obtain ⟨id, hid⟩ := BTreeSet.exists_mem_of_ne_empty hacc
  refine Finset.card_lt_card
    (Finset.ssubset_iff_of_subset (fun k hk => ?_) |>.2 ⟨id, (h.accepted id hid).1, fun hk => ?_⟩)
  · obtain ⟨rec, hrec⟩ := hleft k hk
    exact h.keys k rec hrec
  · obtain ⟨rec, hrec⟩ := hleft id hk
    rw [(h.accepted id hid).2] at hrec
    cases hrec

/-- **The passes over the buffer return**, since each that goes on admitted a buffered op. -/
theorem reconcilePasses_spec (V : View) (fuel : ℕ) (accepted : BTreeSet OpId) (L : LogOK E K P log)
    (hfuel : (drainPool log []).card < fuel) :
    ∃ res log', reconcilePasses E V fuel log accepted = some (res, log') ∧ LogOK E K P log' := by
  induction fuel generalizing log accepted with
  | zero => exact absurd hfuel (Nat.not_lt_zero _)
  | succ fuel ih =>
    have hspec : ∃ res log', receiveOps E V log none [] = some (res, log') ∧ Receives E K P log res log' ∧
        ∀ admitted, res = .ok admitted → Drained log ([].map Op.id) admitted.accepted log' :=
      receiveOpsAdmission_spec V none L (by simp) (by simp) (by intro; simp)
    obtain ⟨res, log₁, h, hres, hdrained⟩ := hspec
    unfold reconcilePasses
    rw [h]
    cases res with
    | error e => exact ⟨_, _, rfl, hres.1⟩
    | ok pass =>
      dsimp only
      split
      · rename_i hagain
        have hlt := (hdrained pass rfl).card_lt (by rintro heq; simp [heq] at hagain)
        exact ih _ hres.1 (by omega)
      · exact ⟨_, _, rfl, hres.1⟩

end Irokle
