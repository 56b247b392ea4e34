import Irokle.Proof.Reachable
import Irokle.Proof.Taken

/-!
# Receives converge

A store that receives the ops of one branch, in any order and any batches, ends with exactly that
branch: a batch loses no op, the drain leaves no ready op, and an op whose dependencies are all
admitted does not wait.

* `Collects` — what holds between the calls;
* `Clean.round` — a round of the drain, while no bound is reached;
* `Collects.receive` — a receive leaves nothing ready;
* `receive_converges` — two stores that received the same branch hold the same.
-/

namespace Irokle

open Std Outcome Causal List ExtTreeSet

variable {E E' : Env} {V : View} {r : Records} {t : TopicId} {g op : Op} {γ : TopicGenesis} {H : Set Op}
  {log log' : Oplog} {ops : List Op} {verified : BTreeSet OpId} {source : Option PeerId} {e : Error}
  {effects : Option ReceiveEffects}

/-! ## The errors a call logs -/

/-- A bound refused a buffered op, which the code logs and goes on. -/
def Oplog.Tainted (log : Oplog) : Prop := ∃ entry ∈ log.debug, entry.2.isLimit = true

theorem Oplog.Tainted.mono (h : log.Tainted) (hpre : log.debug <+: log'.debug) : log'.Tainted := by
  obtain ⟨entry, hentry, hlim⟩ := h
  exact ⟨entry, hpre.subset hentry, hlim⟩

variable {d d' : Drain} {q : Queued} {queue : List Queued}

/-- Every outcome of a round leaves a log that satisfies `Q`. -/
def Flow.Leaves (Q : Oplog → Prop) (flow : Flow) : Prop := flow.Post (fun _ => Q) (fun _ => Q) fun _ _ => Q

theorem failBatch_debug : (failBatch E d log q e).Leaves fun log' => log.debug <+: log'.debug := by
  unfold failBatch
  split
  · split
    · rename_i op _
      split
      · exact prefix_rfl
      · have h : ({ log with debug := log.debug ++ [(op.id, e)] }.rejectPendingSubtree E op.id).2.debug =
            log.debug ++ [(op.id, e)] := rfl
        have hpre : log.debug <+:
          ({ log with debug := log.debug ++ [(op.id, e)] }.rejectPendingSubtree E op.id).2.debug :=
          h ▸ prefix_append _ _
        split
        · rename_i heq
          rwa [heq] at hpre
        · rename_i heq
          rwa [heq] at hpre
      · dsimp only
        split <;> exact prefix_append _ _
    · exact prefix_rfl
  · exact prefix_rfl

section Logged

variable {K : Prop} {P : Op → Prop} {log₀ : Oplog} {pool : Finset OpId} (heff : EffectsOK effects)

include heff

theorem drainQueue_debug (D : DrainOK E K P log₀ pool d log) :
    (drainQueue E V verified effects d log).Leaves fun log' => log.debug <+: log'.debug := by
  unfold drainQueue
  split
  · exact prefix_rfl
  · rename_i q queue hq
    obtain ⟨op, -, hops, hP, hvalid, hdeps⟩ := D.queue q (hq ▸ mem_cons_self)
    dsimp only
    rw [hops]
    rcases takeOp_spec V q.source verified D.ok hP hvalid hdeps heff with
      ⟨acc, log', h, -, hpre, -⟩ | ⟨e, log', h, -, hpre, -⟩
    · rw [h]
      exact hpre
    · rw [h]
      exact Flow.Post.mono failBatch_debug (fun _ _ h' => hpre.trans h') (fun _ _ h' => hpre.trans h')
        fun _ _ _ h' => hpre.trans h'

/-- A round only adds to the logged errors. -/
theorem drainRound_debug (D : DrainOK E K P log₀ pool d log) :
    (drainRound E V verified effects d log).Leaves fun log' => log.debug <+: log'.debug := by
  unfold drainRound
  split
  · rename_i hempty
    split
    · split <;> exact prefix_rfl
    · dsimp only
      split
      · split <;> exact prefix_rfl
      · rename_i last hlast
        exact drainQueue_debug heff (D.load (List.isEmpty_iff.1 hempty) hlast _).1
  · exact drainQueue_debug heff D

end Logged

/-! ## Draining -/

/-- The store collects the branch `H`: all it holds and buffers belongs to it, nothing of it was
rejected, and what `known` lists is stored or buffered. -/
structure Collects (E : Env) (g : Op) (γ : TopicGenesis) (H : Set Op) (known : OpId → Prop)
    (log : Oplog) : Prop where
  branch : Branch E g γ H
  ok : LogOK E True (· ∈ H) log
  stored : ∀ (id : OpId) op, log.inner.ops[id]? = some op → op ∈ H
  waits : WaitsForAll log.inner
  unrejected : ∀ x ∈ H, x.id ∉ (log.inner.rejected[g.body.topicId]?.getD {}).ids
  knows : ∀ id, known id → log.Knows id

variable {known known' : OpId → Prop} {acc : BTreeSet OpId} {evictions : List TopicEviction} {log₀ : Oplog}
  {pool : Finset OpId} {ids : List OpId}

theorem Collects.partOf (G : Collects E g γ H known log) : PartOf E g γ H g.body.topicId log.inner.toRecords :=
  ⟨G.branch, G.ok.records, rfl, fun op hop => G.stored op.id op hop.1⟩

theorem Collects.takeable (G : Collects E g γ H known log) : Takeable log.inner H g.body.topicId ops :=
  Or.inr G.unrejected

/-- A batch of ops of the branch keeps the store collecting. -/
theorem Collects.take (G : Collects E g γ H known log) (T : Took E True (· ∈ H) log ids acc evictions log')
    (h : Takes log ops log') :
    Collects E g γ H (fun id => known id ∨ ∃ op ∈ ops, op.id = id) log' where
  branch := G.branch
  ok := T.ok
  stored id op hop := (T.reported.stored id op hop).elim (fun h => h.2) fun h => G.stored id op h
  waits := h.waits G.waits
  unrejected := h.rejected ▸ G.unrejected
  knows id hid := by
    rcases hid with hid | ⟨op, hop, rfl⟩
    · exact h.knows id (G.knows id hid)
    · exact h.taken op hop

theorem Collects.mono (G : Collects E g γ H known log) (h : ∀ id, known' id → known id) :
    Collects E g γ H known' log :=
  { G with knows := fun id hid => G.knows id (h id hid) }

/-- A ready op is buffered and has all its dependencies. -/
theorem Collects.ready_op (G : Collects E g γ H known log) (hop : E.Valid op)
    (hid : op.id ∈ log.inner.pendingReady) :
    log.inner.ops[op.id]? = none ∧ ∀ d ∈ op.body.deps, ∃ x, log.inner.ops[d]? = some x := by
  obtain ⟨rec, hrec, hempty⟩ := (G.ok.buffer.ok.ready op.id).1 hid
  obtain ⟨x, hx, -⟩ := G.ok.buffer.ok.opOf op.id rec hrec
  obtain ⟨hv, hxid⟩ := G.ok.pendingOp op.id x hx
  obtain rfl := hv.eq_of_id hop hxid
  refine ⟨?_, fun d hd => G.waits x.id x rec hx hrec d hd (by simp [hempty])⟩
  have hunstored := G.ok.buffer.stored trivial x.id rec hrec
  cases hget : log.inner.ops[x.id]? with
  | none => rfl
  | some y =>
    rw [G.ok.records.depResolvable_iff.2 ⟨y, hget⟩] at hunstored
    cases hunstored

/-- The loop while no bound was reached: what is queued is ready, and a pass or window that visited
something has admitted something. -/
structure Clean (E : Env) (g : Op) (γ : TopicGenesis) (H : Set Op) (known : OpId → Prop) (d : Drain)
    (log : Oplog) : Prop where
  collects : Collects E g γ H known log
  heldBack : d.heldBack = ∅
  ready : ∀ q ∈ d.queue, ∀ op ∈ q.ops, op.id ∈ log.inner.pendingReady
  pass : d.cursor = none ∨ d.passAdmitted = true ∨ d.queue ≠ []
  window : d.drained = 0 ∨ d.windowAdmitted = true ∨ d.queue ≠ []

/-- How a round may end: in a state of the loop, with nothing ready, or at a bound. -/
def CleanFlow (E : Env) (g : Op) (γ : TopicGenesis) (H : Set Op) (known : OpId → Prop) (flow : Flow) : Prop :=
  flow.Post (fun d' log' => log'.Tainted ∨ Clean E g γ H known d' log')
    (fun _ log' => log'.Tainted ∨ Collects E g γ H known log' ∧ log'.inner.pendingReady = ∅)
    fun e _ log' => log'.Tainted ∨ e.root.isLimit = true

theorem Flow.Leaves.cleanFlow {flow : Flow} (h : flow.Leaves Oplog.Tainted) : CleanFlow E g γ H known flow :=
  Flow.Post.mono h (fun _ _ => Or.inl) (fun _ _ => Or.inl) fun _ _ _ => Or.inl

theorem Oplog.Tainted.round {P : Op → Prop} (heff : EffectsOK effects) (D : DrainOK E True P log₀ pool d log)
    (h : log.Tainted) :
    CleanFlow E g γ H known (drainRound E V verified effects d log) :=
  Flow.Leaves.cleanFlow (Flow.Post.mono (drainRound_debug heff D) (fun _ _ => h.mono) (fun _ _ => h.mono)
    fun _ _ _ => h.mono)

theorem pendingVerdict_limit (op : Op) (r : Records) (h : e.isLimit = true) :
    ∃ verdict, pendingVerdict r op e = .ok verdict := by
  cases e <;> first | exact ⟨_, rfl⟩ | cases h

/-- A bound that refuses a queued op is logged. -/
theorem failBatch_tainted (hq : q.fromPending = true) (hops : q.ops = [op]) (he : e.isLimit = true) :
    (failBatch E d log q e).Leaves Oplog.Tainted := by
  have hlogged : ∀ {log₁ : Oplog}, log₁.debug = log.debug ++ [(op.id, e)] → log₁.Tainted := by
    intro log₁ h
    exact ⟨(op.id, e), by simp [h], he⟩
  obtain ⟨verdict, hverdict⟩ := pendingVerdict_limit op log.inner.toRecords he
  unfold failBatch
  rw [if_pos hq, hops]
  dsimp only
  rw [hverdict]
  cases verdict with
  | reject =>
    have h : ({ log with debug := log.debug ++ [(op.id, e)] }.rejectPendingSubtree E op.id).2.Tainted := hlogged
      rfl
    dsimp only
    split
    · rename_i heq
      rwa [heq] at h
    · rename_i heq
      rwa [heq] at h
  | retain =>
    dsimp only
    split <;> exact hlogged rfl

/-- **The next queued op is admitted**, or a bound stops it. -/
theorem Clean.pop (hrace : ¬E.Raced) (hV : V.receiveGenesis = none) (D : DrainOK E True (· ∈ H) log₀ pool d log)
    (C : Clean E g γ H known d log) (hne : d.queue ≠ []) :
    CleanFlow E g γ H known (drainQueue E V verified none d log) := by
  obtain ⟨q, queue, hq⟩ := exists_cons_of_ne_nil hne
  obtain ⟨op, hpending, hops, hH, hvalid, hdeps⟩ := D.queue q (hq ▸ mem_cons_self)
  have hready : op.id ∈ log.inner.pendingReady := C.ready q (hq ▸ mem_cons_self) op (hops ▸ mem_cons_self)
  obtain ⟨hnone, hheld⟩ := C.collects.ready_op hvalid hready
  have hin : ∀ x ∈ [op], x ∈ H := by simpa using hH
  obtain ⟨res, log', hres, hcases⟩ :=
    admitWithRetry_complete q.source verified (Or.inl hrace) C.collects.partOf C.collects.ok hin hV hin
    C.collects.takeable
  unfold drainQueue
  rw [hq]
  dsimp only
  rw [hops, hres]
  have heff : EffectsOK none := fun _ h => by cases h
  rcases takeOp_spec V q.source verified C.collects.ok hH hvalid hdeps heff with
    ⟨acc, log₁, hspec, T, -⟩ | ⟨e, log₁, hspec, href, -⟩
  · rw [hres] at hspec
    cases hspec
    rcases hcases with ⟨e, he, -⟩ | ⟨acc, hacc, htakes⟩
    · cases he
    · cases hacc
      obtain ⟨x, hx⟩ := htakes.held op (by simp) fun d hd => by
        obtain ⟨y, hy⟩ := hheld d hd
        exact ⟨y, htakes.kept d y hy⟩
      have hmem : op.id ∈ acc := by
        rcases T.reported.stored op.id x hx with h | h
        · exact h.1
        · rw [hnone] at h
          cases h
      have hflag : (!acc.isEmpty) = true := by simp [BTreeSet.isEmpty_eq_false_of_mem hmem]
      refine Or.inr ⟨(C.collects.take T htakes).mono fun id => Or.inl, C.heldBack, fun q' hq' op' hop' => ?_,
        Or.inr (Or.inl ?_), Or.inr (Or.inl ?_)⟩
      · obtain ⟨op'', -, hops', -, hvalid', -⟩ := D.queue q' (hq ▸ mem_cons_of_mem q hq')
        have hready' := C.ready q' (hq ▸ mem_cons_of_mem q hq') op' hop'
        rw [hops', mem_singleton] at hop'
        subst hop'
        rcases htakes.ready C.collects.waits op'.id hready' with ⟨y, hy⟩ | h
        · -- only the op that was popped became stored, and the queue lists it once
          rcases T.reported.stored op'.id y hy with ⟨hacc, -⟩ | hy
          · have heq : op'.id = op.id := by simpa using T.accepted op'.id hacc
            have hnd := D.nodup
            rw [hq, queueIds_cons, hops, map_singleton, singleton_append, nodup_cons] at hnd
            refine absurd ?_ hnd.1
            rw [← heq]
            exact mem_flatMap.2 ⟨q', hq', by simp [hops']⟩
          · rw [(C.collects.ready_op hvalid' hready').1] at hy
            cases hy
        · exact h
      · exact Bool.or_eq_true_iff.2 (Or.inr hflag)
      · exact Bool.or_eq_true_iff.2 (Or.inr hflag)
  · rw [hres] at hspec
    cases hspec
    rcases hcases with hstopped | ⟨acc, hacc, -⟩
    · obtain ⟨e', he', hlim⟩ := hstopped.isLimit hrace
      cases he'
      exact (failBatch_tainted hpending hops (Error.root_eq href ▸ hlim)).cleanFlow
    · cases hacc

theorem readyAfter_none (p : PendingIndex) : readyAfter p none = p.pendingReady.toList := by simp [readyAfter]

/-- **A round of the loop** leaves a state of the loop, or nothing ready, unless a bound was reached. -/
theorem Clean.round (hrace : ¬E.Raced) (hV : V.receiveGenesis = none) (D : DrainOK E True (· ∈ H) log₀ pool d log)
    (C : Clean E g γ H known d log) : CleanFlow E g γ H known (drainRound E V verified none d log) := by
  unfold drainRound
  split
  · rename_i hempty
    have hq : d.queue = [] := List.isEmpty_iff.1 hempty
    have hnil : ¬d.queue ≠ [] := by simp [hq]
    split
    · rename_i hdrained
      have hwindow : d.windowAdmitted = true := by
        rcases C.window with h | h | h
        · rw [h] at hdrained
          exact absurd hdrained (by decide)
        · exact h
        · exact absurd h hnil
      rw [if_pos hwindow]
      exact Or.inr ⟨C.collects, C.heldBack, by simp [hq], Or.inl rfl, Or.inl rfl⟩
    · dsimp only
      split
      · rename_i hlast
        split
        · exact Or.inr ⟨C.collects, C.heldBack, by simp [hq], Or.inl rfl, C.window⟩
        · rename_i hpass
          have hcursor : d.cursor = none := by
            rcases C.pass with h | h | h
            · exact h
            · exact absurd h hpass
            · exact absurd h hnil
          refine Or.inr ⟨C.collects, ?_⟩
          -- a slice from the start that is empty says that nothing is ready
          have hids := readyPendingAfter_ids C.collects.ok.buffer.ok d.cursor readySlice
          rw [getLast?_eq_none_iff.1 hlast, hcursor, readyAfter_none] at hids
          refine eq_empty_iff_forall_not_mem.2 fun id hid => ?_
          have hin := mem_toList.2 hid
          cases hlist : log.inner.pendingReady.toList with
          | nil => simp [hlist] at hin
          | cons a l => simp [hlist, readySlice] at hids
      · rename_i last hlast
        set slice := log.inner.readyPendingAfter d.cursor readySlice with hslice
        have D₁ : DrainOK E True (· ∈ H) log₀ pool { d with
            cursor := some last.2.id
            drained := d.drained + slice.length
            queue := queueSlice (slice.filter fun e => decide (e.2.id ∉ d.heldBack)) } log :=
              (D.load hq hlast _).1
        have hfresh : (slice.filter fun e => decide (e.2.id ∉ d.heldBack)) = slice := by simp [C.heldBack]
        have hmem : last ∈ slice := mem_of_getLast? hlast
        have hready : ∀ e ∈ slice, e.2.id ∈ log.inner.pendingReady := by
          intro e he
          have hids := readyPendingAfter_ids C.collects.ok.buffer.ok d.cursor readySlice
          have hin : e.2.id ∈ (readyAfter log.inner.toPendingIndex d.cursor).take readySlice :=
            hids ▸ mem_map_of_mem he
          exact mem_toList.1 (List.mem_filter.1 (mem_of_mem_take hin)).1
        have hne : queueSlice (slice.filter fun e => decide (e.2.id ∉ d.heldBack)) ≠ [] := by
          rw [hfresh]
          simp [queueSlice, ne_nil_of_mem hmem]
        refine Clean.pop hrace hV D₁ ⟨C.collects, C.heldBack, fun q hq' op hop => ?_, Or.inr (Or.inr hne),
          Or.inr (Or.inr hne)⟩ hne
        rw [hfresh] at hq'
        obtain ⟨e, he, rfl⟩ := mem_map.1 hq'
        rw [mem_singleton.1 hop]
        exact hready e he
  · rename_i hne
    exact C.pop hrace hV D fun h => hne (by simp [h])

/-! ## A whole receive -/

/-- A call reached a bound: it returned one, or logged one for a buffered op. -/
def hitsLimit (res : Result Admitted) (log : Oplog) : Bool :=
  (match res with
    | .error e => e.root.isLimit
    | .ok _ => false) || log.debug.any (·.2.isLimit)

theorem hitsLimit_eq_false {res : Result Admitted} :
    hitsLimit res log = false ↔ (∀ e, res = .error e → e.root.isLimit = false) ∧ ¬log.Tainted := by
  unfold hitsLimit Oplog.Tainted
  cases res <;> simp

theorem Error.isLimit_failure (h : e.root.isLimit = true) (admitted : Admitted) :
    (admissionFailure admitted e).root.isLimit = true := by
  cases e with
  | admissionCommitted committed s =>
    change s.isLimit = true at h
    unfold admissionFailure
    dsimp only
    split
    · rwa [root_eq (refuses_of_isLimit h)]
    · exact h
  | _ => exact (congrArg isLimit (root_failure (refuses_of_isLimit h) admitted)).trans h

theorem drainLoop_clean (hrace : ¬E.Raced) (hV : V.receiveGenesis = none) (R₀ : RecordsOK E log₀.inner.toRecords)
    {fuel : ℕ} {res : Result Unit} (D : DrainOK E True (· ∈ H) log₀ pool d log)
    (C : log.Tainted ∨ Clean E g γ H known d log)
    (h : drainLoop E V verified none fuel d log = some (res, d', log')) :
    log'.Tainted ∨ (∃ e, res = .error e ∧ e.root.isLimit = true) ∨
      res = .ok () ∧ Collects E g γ H known log' ∧ log'.inner.pendingReady = ∅ := by
  induction fuel generalizing d log with
  | zero => cases h
  | succ fuel ih =>
    have hround : Rounds E True (· ∈ H) log₀ pool (d.measure pool.card log)
      (drainRound E V verified none d log) :=
      drainRound_spec V verified R₀ (fun _ h => by cases h) D
    have hclean : CleanFlow E g γ H known (drainRound E V verified none d log) :=
      C.elim (fun h => h.round (fun _ h => by cases h) D) fun h => h.round hrace hV D
    unfold drainLoop at h
    cases hflow : drainRound E V verified none d log with
    | «continue» d₁ log₁ =>
      rw [hflow] at h hround hclean
      exact ih hround.1 hclean h
    | done d₁ log₁ =>
      rw [hflow] at h hclean
      cases h
      exact hclean.imp_right fun hdone => Or.inr ⟨rfl, hdone⟩
    | fail e d₁ log₁ =>
      rw [hflow] at h hclean
      cases h
      exact hclean.imp_right fun hlim => Or.inl ⟨e, rfl, hlim⟩

/-- What `receiveOpsAdmission` returns of its loop. -/
def drainReturn (loop : Option (Result Unit × Drain × Oplog)) : Option (Result Admitted × Oplog) :=
  match loop with
  | none => none
  | some (.ok (), d, log) => some (.ok d.admitted, log)
  | some (.error e, d, log) => some (.error (admissionFailure d.admitted e), log)

/-- **A receive keeps the store collecting and leaves nothing ready**, unless it reaches a bound. -/
theorem Collects.receive {res : Result Admitted} (hrace : ¬E.Raced) (hV : V.receiveGenesis = none)
    (G : Collects E g γ H known log) (hops : ∀ op ∈ ops, op ∈ H)
    (h : receiveOps E V log source ops = some (res, log')) (hlim : hitsLimit res log' = false) :
    Collects E g γ H (fun id => known id ∨ ∃ op ∈ ops, op.id = id) log' ∧ log'.inner.pendingReady = ∅ := by
  obtain ⟨hres, htaint⟩ := hitsLimit_eq_false.1 hlim
  have hreturned : ∀ {loop : Option (Result Unit × Drain × Oplog)},
    (∀ res₀ d' log'', loop = some (res₀, d', log'') →
      log''.Tainted ∨ (∃ e, res₀ = .error e ∧ e.root.isLimit = true) ∨ res₀ = .ok () ∧
        Collects E g γ H (fun id => known id ∨ ∃ op ∈ ops, op.id = id) log'' ∧ log''.inner.pendingReady = ∅) →
      drainReturn loop = some (res, log') →
      Collects E g γ H (fun id => known id ∨ ∃ op ∈ ops, op.id = id) log' ∧ log'.inner.pendingReady = ∅ := by
    intro loop hloop heq
    unfold drainReturn at heq
    split at heq
    · cases heq
    · cases heq
      rcases hloop _ _ _ rfl with h | ⟨e, he, -⟩ | ⟨-, hG⟩
      · exact absurd h htaint
      · cases he
      · exact hG
    · cases heq
      rcases hloop _ _ _ rfl with h | ⟨e, he, hroot⟩ | ⟨he, -⟩
      · exact absurd h htaint
      · cases he
        have hnot := hres _ rfl
        rw [Error.isLimit_failure hroot] at hnot
        cases hnot
      · cases he
  refine hreturned (fun res₀ d' log'' hloop => ?_) h
  have R := G.ok.records
  by_cases hnil : ops = []
  · subst hnil
    have D : DrainOK E True (· ∈ H) log (drainPool log []) (Drain.start source []) log :=
      (Buffers.refl G.ok _).took.drainOK (fun _ _ => .refl _) rfl rfl rfl
    have C : Clean E g γ H (fun id => known id ∨ ∃ op ∈ ([] : List Op), op.id = id) (Drain.start source []) log :=
      ⟨G.mono (by simp), rfl, by simp [Drain.start], Or.inl rfl, Or.inl rfl⟩
    exact drainLoop_clean hrace hV R D (Or.inr C) hloop
  · rw [drainLoop_start hnil] at hloop
    obtain ⟨res₁, log₁, hres, hcases⟩ :=
      admitWithRetry_complete source ∅ (Or.inl hrace) G.partOf G.ok hops hV hops G.takeable
    have heff : EffectsOK none := fun _ h => by cases h
    have hver : ∀ op ∈ ops, op.id ∈ (∅ : BTreeSet OpId) → E.Valid op := by simp
    obtain ⟨res₂, log₂, hspec, hs, -⟩ := admitWithRetry_spec V source G.ok hops hver heff
    rw [hres] at hspec
    cases hspec
    rw [hres] at hloop
    rcases hcases with hstopped | ⟨acc, rfl, htakes⟩
    · obtain ⟨e, rfl, hroot⟩ := hstopped.isLimit hrace
      cases hloop
      exact Or.inr (Or.inl ⟨e, rfl, hroot⟩)
    · obtain ⟨T, hquiet⟩ := hs
      have D : DrainOK E True (· ∈ H) log (drainPool log (ops.map Op.id))
        (Drain.record { queue := [] } acc none) log₁ :=
        T.drainOK (fun h1 h2 => (hquiet h1 h2).quiet) rfl (ext_mem fun id => by simp [Drain.record])
          (by simp [Drain.record])
      have C : Clean E g γ H (fun id => known id ∨ ∃ op ∈ ops, op.id = id)
        (Drain.record { queue := [] } acc none) log₁ :=
        ⟨G.take T htakes, rfl, by simp [Drain.record], Or.inl rfl, Or.inl rfl⟩
      exact drainLoop_clean hrace hV R D (Or.inr C) hloop

/-! ## Two stores of one scheme -/

/-- Two stores use one scheme; what their memory budgets refuse may differ. -/
structure Env.SameScheme (E E' : Env) : Prop where
  deriveId : E'.deriveId = E.deriveId
  verify : E'.verify = E.verify
  actorIdFor : E'.actorIdFor = E.actorIdFor
  topicFingerprintFor : E'.topicFingerprintFor = E.topicFingerprintFor

section Scheme

variable (hE : E.SameScheme E')

include hE

theorem Env.SameScheme.valid_iff : E'.Valid op ↔ E.Valid op := by
  rw [Env.valid_iff, Env.valid_iff, hE.deriveId, hE.verify]

theorem Env.SameScheme.past_eq : E'.past op = E.past op := by
  have hset : {x | E'.Valid x} = {x | E.Valid x} := Set.ext fun x => hE.valid_iff
  unfold Env.past
  rw [hset]

theorem Env.SameScheme.symm : E'.SameScheme E :=
  ⟨hE.deriveId.symm, hE.verify.symm, hE.actorIdFor.symm, hE.topicFingerprintFor.symm⟩

theorem Branch.transfer (B : Branch E g γ H) : Branch E' g γ H where
  root := B.root
  payload := B.payload
  structural := B.structural
  typeBytes := B.typeBytes
  topic := B.topic
  links op hop :=
    have L := B.links op hop
    { deps := L.deps, generation := L.generation, first := L.first, next := L.next, bounded := L.bounded
      valid := hE.valid_iff.2 L.valid
      actor := hE.actorIdFor ▸ L.actor }
  authored op hop hne :=
    have A := B.authored op hop hne
    have hpast : E'.past op = E.past op := hE.past_eq
    { deps := A.deps, payload := A.payload, eventType := A.eventType, member := hpast ▸ A.member }
  slots := B.slots

theorem RecordsOK.transfer (R : RecordsOK E r) : RecordsOK E' r where
  opId := R.opId
  hasMeta id op hop := by
    obtain ⟨m, hm, hmok⟩ := R.hasMeta id op hop
    have hset : {x | E'.Valid x} = {x | E.Valid x} := Set.ext fun x => hE.valid_iff
    exact ⟨m, hm, hmok.eq, hmok.positive, hset ▸ hmok.exact⟩
  hasOp := R.hasOp
  topicOps := R.topicOps
  children := R.children
  childKeys := R.childKeys
  slots := R.slots
  tips := R.tips
  clock := R.clock
  clockPos := R.clockPos
  heads := R.heads
  maxGeneration := R.maxGeneration
  state t st hst := by
    obtain ⟨g, γ, B, hstate⟩ := R.state t st hst
    exact ⟨g, γ, B.transfer hE, hstate⟩
  noState := R.noState
  fingerprint t := by
    have h := R.fingerprint t
    unfold Records.topicFingerprintOf at h ⊢
    rw [hE.topicFingerprintFor]
    exact h
  stamped := R.stamped

end Scheme

/-! ## Convergence -/

/-- The store after the receives `calls`, one after the other; `none` once one of them reached a bound. -/
def receiveAll (E : Env) : Oplog → List (Option PeerId × List Op) → Option Oplog
  | log, [] => some log
  | log, (source, ops) :: calls =>
    match receiveOps E {} log source ops with
    | none => none
    | some (res, log) => if hitsLimit res log then none else receiveAll E log calls

variable {calls calls' : List (Option PeerId × List Op)}

theorem collects_fresh (B : Branch E g γ H) : Collects E g γ H (fun _ => False) {} where
  branch := B
  ok := logOK_empty
  stored := by simp
  waits := by simp [WaitsForAll]
  unrejected := by simp
  knows := by simp

/-- **Every op received is stored or buffered, and nothing ready is left.** -/
theorem Collects.receiveAll (hrace : ¬E.Raced) (G : Collects E g γ H known log)
    (hready : log.inner.pendingReady = ∅) (h : receiveAll E log calls = some log')
    (hcalls : ∀ c ∈ calls, ∀ op ∈ c.2, op ∈ H) :
    Collects E g γ H (fun id => known id ∨ ∃ c ∈ calls, ∃ op ∈ c.2, op.id = id) log' ∧
    log'.inner.pendingReady = ∅ := by
  induction calls generalizing log known with
  | nil =>
    cases h
    exact ⟨G.mono (by simp), hready⟩
  | cons call calls ih =>
    obtain ⟨source, ops⟩ := call
    unfold Irokle.receiveAll at h
    split at h
    · cases h
    · rename_i res log₁ hreceive
      split at h
      · cases h
      · rename_i hlim
        obtain ⟨G₁, hready₁⟩ := G.receive hrace rfl (hcalls _ mem_cons_self) hreceive (Bool.eq_false_iff.2 hlim)
        obtain ⟨G₂, hready₂⟩ := ih G₁ hready₁ h fun c hc => hcalls c (mem_cons_of_mem _ hc)
        refine ⟨G₂.mono fun id hid => ?_, hready₂⟩
        rcases hid with hid | ⟨c, hc, hop⟩
        · exact Or.inl (Or.inl hid)
        · rcases mem_cons.1 hc with rfl | hc
          · exact Or.inl (Or.inr hop)
          · exact Or.inr ⟨c, hc, hop⟩

/-- **A store that knows the whole branch and has nothing ready holds the whole branch.** -/
theorem Collects.holds (G : Collects E g γ H known log) (hready : log.inner.pendingReady = ∅)
    (hall : ∀ op ∈ H, known op.id) :
    ∀ op ∈ H, log.inner.ops[op.id]? = some op := by
  -- by generation: an op whose dependencies are all stored would be ready if it still waited
  have key : ∀ k, ∀ op ∈ H, op.body.generation = k → log.inner.ops[op.id]? = some op := by
    intro k
    induction k using Nat.strong_induction_on with
    | _ k ih =>
      intro op hop hk
      rcases G.knows op.id (hall op hop) with ⟨x, hx⟩ | ⟨rec, hrec⟩
      · rw [hx, G.ok.records.eq_of_valid hx (G.branch.valid hop)]
      · obtain ⟨x, hx, -⟩ := G.ok.buffer.ok.opOf op.id rec hrec
        obtain ⟨hv, hid⟩ := G.ok.pendingOp op.id x hx
        obtain rfl := hv.eq_of_id (G.branch.valid hop) hid
        have hempty : rec.missing = ∅ := by
          refine eq_empty_iff_forall_not_mem.2 fun d hd => ?_
          obtain ⟨y, hy, rfl, hlt⟩ := (G.branch.links x hop).deps d (G.ok.waits x.id x rec hx hrec d hd)
          have hunstored := G.ok.buffer.missing trivial x.id rec hrec y.id hd
          rw [G.ok.records.depResolvable_iff.2 ⟨y, ih _ (hk ▸ hlt) y hy rfl⟩] at hunstored
          cases hunstored
        have hin : x.id ∈ log.inner.pendingReady := (G.ok.buffer.ok.ready x.id).2 ⟨rec, hrec, hempty⟩
        rw [hready] at hin
        simp at hin
  exact fun op hop => key _ op hop rfl

/-- The store admitted exactly `H` and buffers nothing. -/
structure HoldsExactly (H : Set Op) (inner : MemoryInner) : Prop where
  ops : ∀ (id : OpId) op, inner.ops[id]? = some op ↔ op ∈ H ∧ op.id = id
  records : inner.pendingRecords = ∅
  pending : inner.pendingOps = ∅

theorem Collects.holdsExactly (G : Collects E g γ H known log) (hready : log.inner.pendingReady = ∅)
    (hall : ∀ op ∈ H, known op.id) : HoldsExactly H log.inner := by
  have hholds := G.holds hready hall
  have hnone : ∀ id : OpId, log.inner.pendingRecords[id]? = none := by
    intro id
    refine Option.eq_none_iff_forall_ne_some.2 fun rec hrec => ?_
    obtain ⟨x, hx, hid, -⟩ := G.ok.buffer.ok.opOf id rec hrec
    have hunstored := G.ok.buffer.stored trivial id rec hrec
    rw [G.ok.records.depResolvable_iff.2 ⟨x, hid ▸ hholds x (G.ok.pending id x hx).1⟩] at hunstored
    cases hunstored
  refine ⟨fun id op => ⟨fun h => ⟨G.stored id op h, G.ok.records.opId id op h⟩, ?_⟩, ?_, ?_⟩
  · rintro ⟨hop, rfl⟩
    exact hholds op hop
  · exact ExtTreeMap.ext_getElem? fun id : OpId => by simp [hnone]
  · exact ExtTreeMap.ext_getElem? fun id : OpId => by simp [G.ok.buffer.ok.recordOf id (hnone id)]

/-- A fresh store that received exactly the ops of a branch holds exactly the branch. -/
theorem receiveAll_fresh (hrace : ¬E.Raced) (B : Branch E g γ H) (hlog : receiveAll E {} calls = some log)
    (hcalls : ∀ op, op ∈ H ↔ ∃ c ∈ calls, op ∈ c.2) :
    HoldsExactly H log.inner ∧ RecordsOK E log.inner.toRecords := by
  obtain ⟨G, hready⟩ := (collects_fresh B).receiveAll hrace rfl hlog fun c hc op hop => (hcalls op).2 ⟨c, hc, hop⟩
  refine ⟨G.holdsExactly hready fun op hop => ?_, G.ok.records⟩
  obtain ⟨c, hc, hin⟩ := (hcalls op).1 hop
  exact Or.inr ⟨c, hc, op, hin, rfl⟩

/-- **Receives converge.** Two fresh stores that receive the ops of one branch, in any order, batches
and repetition, from any sources, and reach no bound, both end with exactly the branch, nothing
buffered, and the same heads, clock, state, fingerprint and metadata. No other writer races them. -/
theorem receive_converges (hE : E.SameScheme E') (hrace : ¬E.Raced) (hrace' : ¬E'.Raced) (B : Branch E g γ H)
    (hlog : receiveAll E {} calls = some log) (hlog' : receiveAll E' {} calls' = some log')
    (hcalls : ∀ op, op ∈ H ↔ ∃ c ∈ calls, op ∈ c.2) (hcalls' : ∀ op, op ∈ H ↔ ∃ c ∈ calls', op ∈ c.2) :
    HoldsExactly H log.inner ∧ HoldsExactly H log'.inner ∧
      log.inner.toRecords.SameReads E E' g.body.topicId log'.inner.toRecords := by
  obtain ⟨hholds, R⟩ := receiveAll_fresh hrace B hlog hcalls
  obtain ⟨hholds', R'⟩ := receiveAll_fresh hrace' (B.transfer hE) hlog' hcalls'
  have hsame : log.inner.toRecords.admitted g.body.topicId = log'.inner.toRecords.admitted g.body.topicId := by
    ext op
    simp only [Records.admitted, Set.mem_ofPred_eq, hholds.ops, hholds'.ops]
  have hreads := R.sameReads (R'.transfer hE.symm) hsame
  refine ⟨hholds, hholds', hreads.heads, hreads.clock, hreads.state, ?_, hreads.metas⟩
  rw [hreads.fingerprint]
  unfold Records.topicFingerprintOf
  rw [hE.topicFingerprintFor]

/-- The ops one call each, the last first. -/
def pairBackwards : List (Option PeerId × List Op) :=
  [(none, [pairMerge]), (some (IdType.ofNat 2), [pairRemoval, pairMerge]), (none, [pairEvent]),
    (none, [pairGenesis])]

/-- The ops in one call. -/
def pairAtOnce : List (Option PeerId × List Op) := [(none, [pairMerge, pairGenesis, pairEvent, pairRemoval])]

theorem pair_raced : ¬pairEnv.Raced := by
  rintro (⟨n, k, h⟩ | ⟨n, deps, k, h⟩) <;> cases h

theorem receive_converges_pair : ∃ log log', receiveAll pairEnv {} pairBackwards = some log ∧
    receiveAll pairEnv {} pairAtOnce = some log' ∧ HoldsExactly {op | op ∈ pairOps} log.inner ∧
    HoldsExactly {op | op ∈ pairOps} log'.inner ∧
      log.inner.toRecords.SameReads pairEnv pairEnv (IdType.ofNat 1) log'.inner.toRecords := by
  obtain ⟨γ, B⟩ := pair_branch
  have h : (receiveAll pairEnv {} pairBackwards).isSome = true := by decide +kernel
  have h' : (receiveAll pairEnv {} pairAtOnce).isSome = true := by decide +kernel
  obtain ⟨log, hlog⟩ := Option.isSome_iff_exists.1 h
  obtain ⟨log', hlog'⟩ := Option.isSome_iff_exists.1 h'
  have hcalls : ∀ op, op ∈ {op | op ∈ pairOps} ↔ ∃ c ∈ pairBackwards, op ∈ c.2 := by
    intro op
    simp [pairOps, pairBackwards]
    grind
  have hcalls' : ∀ op, op ∈ {op | op ∈ pairOps} ↔ ∃ c ∈ pairAtOnce, op ∈ c.2 := by
    intro op
    simp [pairOps, pairAtOnce]
    grind
  exact ⟨log, log', hlog, hlog', receive_converges ⟨rfl, rfl, rfl, rfl⟩ pair_raced pair_raced B hlog hlog'
    hcalls hcalls'⟩
end Irokle
