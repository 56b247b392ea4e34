import Irokle.Proof.Expiry
import Irokle.Proof.Reachable

/-!
# The drain misses nothing

`receive_ops_admission` visits the ready index behind a cursor while its own attempts change that index. An
admission can make ops ready that the cursor has passed, so the pass is begun again after it. A pass that
admitted nothing only takes ops out of the index, and each id the cursor has passed in it was queued, or is
held back since it was attempted before. When such a pass ends, everything still ready was attempted in this
call and kept.

* `drainRound_accounts` — one round keeps what the cursor has passed accounted for;
* `drain_complete` — the call returns, and what is still ready then was attempted and kept.
-/

namespace Irokle

open Std Outcome Relation List ExtTreeSet

variable {E : Env} {V : View} {K : Prop} {P : Op → Prop} {n : ℕ} {t : TopicId} {op : Op} {inner : MemoryInner}
  {log log₀ log' : Oplog} {ops : List Op} {verified : BTreeSet OpId} {source : Option PeerId}
  {effects : Option ReceiveEffects} {d d₀ d' : Drain} {pool : Finset OpId} {start : Drain × Oplog}

/-! ## The rounds of a call -/

section Rounds

variable (E V verified effects)

/-- A round after which the loop goes on. -/
def DrainStep (a b : Drain × Oplog) : Prop := drainRound E V verified effects a.1 a.2 = .continue b.1 b.2

/-- The batch a round takes: the first of the queue or, when the queue is empty, of the next slice. -/
def Drain.next (d : Drain) (log : Oplog) : Option Queued :=
  if d.queue.isEmpty then
    if d.drained ≥ maxDrainOps then none
    else ((log.inner.readyPendingAfter d.cursor readySlice).filter fun e =>
      decide (e.2.id ∉ d.heldBack)).head?.map fun e => ⟨some e.1, [e.2], true⟩
  else d.queue.head?

/-- The buffered op was attempted in a round of the call begun at `start`, and stayed: its error keeps it, or
something it waits for was rejected. -/
def Retained (start : Drain × Oplog) (id : OpId) : Prop :=
  ∃ d log source op, ReflTransGen (DrainStep E V verified effects) start (d, log) ∧
    d.next log = some ⟨source, [op], true⟩ ∧
    op.id = id ∧ match log.admitWithRetry E V source [op] verified effects with
      | (.error err, log') => pendingVerdict log'.inner.toRecords op err = .ok .retain
      | (.ok (accepted, _), log') => accepted = ∅ ∧ Barred log'.inner.toPendingIndex op

/-- While a pass admitted nothing, every ready id that its cursor has passed is queued or was retained. -/
structure Accounted (start : Drain × Oplog) (d : Drain) (log : Oplog) : Prop where
  visits : ReflTransGen (DrainStep E V verified effects) start (d, log)
  held : ∀ id ∈ d.heldBack, Retained E V verified effects start id
  passed : d.passAdmitted = false → ∀ id ∈ log.inner.pendingReady, (∃ c, d.cursor = some c ∧ id ≤ c) →
    id ∈ queueIds d.queue ∨ Retained E V verified effects start id

/-- What a finished loop leaves ready was retained. -/
def Finished (start : Drain × Oplog) (d : Drain) (log : Oplog) : Prop :=
  d.admitted.readyRemaining = false → ∀ id ∈ log.inner.pendingReady, Retained E V verified effects start id

end Rounds

/-- The rule of the loop for what a returned result says. -/
theorem drainLoop_result {I D : Drain → Oplog → Prop} {res : Result Unit}
    (hround : ∀ d log, I d log → (drainRound E V verified effects d log).Post I D fun _ _ _ => True) {fuel : ℕ}
    (hI : I d log) (h : drainLoop E V verified effects fuel d log = some (res, d', log')) :
    res = .ok () → D d' log' := by
  induction fuel generalizing d log with
  | zero => cases h
  | succ fuel ih =>
    have hpost := hround d log hI
    unfold drainLoop at h
    cases hflow : drainRound E V verified effects d log with
    | «continue» d₁ log₁ =>
      rw [hflow] at h hpost
      exact ih hpost h
    | done d₁ log₁ =>
      rw [hflow] at h hpost
      cases h
      exact fun _ => hpost
    | fail e d₁ log₁ =>
      rw [hflow] at h
      cases h
      exact fun hres => by cases hres

section Queue

variable {q : Queued} {queue : List Queued} {e e' : Error}

theorem drainQueue_ok {acc : BTreeSet OpId} {ev : Option TopicEviction} (hq : d.queue = q :: queue)
    (hops : q.ops = [op]) (h : log.admitWithRetry E V q.source [op] verified effects = (.ok (acc, ev), log')) :
    drainQueue E V verified effects d log = .continue (Drain.record { d with queue := queue } acc ev) log' := by
  unfold drainQueue
  rw [hq]
  dsimp only
  rw [hops, h]

theorem drainQueue_error (hq : d.queue = q :: queue) (hops : q.ops = [op])
    (h : log.admitWithRetry E V q.source [op] verified effects = (.error e, log')) :
    drainQueue E V verified effects d log = failBatch E { d with queue := queue } log' q e := by
  unfold drainQueue
  rw [hq]
  dsimp only
  rw [hops, h]

variable (hpending : q.fromPending = true) (hops : q.ops = [op])

include hpending hops

theorem failBatch_undecided (h : pendingVerdict log.inner.toRecords op e = .error e') :
    failBatch E d log q e = .fail e' d log := by
  unfold failBatch
  rw [if_pos hpending, hops]
  dsimp only
  rw [h]

theorem failBatch_reject (h : pendingVerdict log.inner.toRecords op e = .ok .reject) : failBatch E d log q e =
    match { log with debug := log.debug ++ [(op.id, e)] }.rejectPendingSubtree E op.id with
    | (.error e', log) => .fail e' d log
    | (.ok (), log) => .continue d log := by
  unfold failBatch
  rw [if_pos hpending, hops]
  dsimp only
  generalize pendingVerdict log.inner.toRecords op e = v at h
  subst h
  rfl

theorem failBatch_retain (h : pendingVerdict log.inner.toRecords op e = .ok .retain) : failBatch E d log q e =
    if e = .admissionConflict then
      .done { d with
        heldBack := d.heldBack.insert op.id
        admitted := { d.admitted with readyRemaining := true } } { log with debug := log.debug ++ [(op.id, e)] }
    else .continue { d with heldBack := d.heldBack.insert op.id }
      { log with debug := log.debug ++ [(op.id, e)] } := by
  unfold failBatch
  rw [if_pos hpending, hops]
  dsimp only
  rw [h]

end Queue

/-- A rejected op is not ready. -/
theorem rejectPendingSubtree_gone (L : LogOK E K P log) {id : OpId}
    (h : log.rejectPendingSubtree E id = (.ok (), log')) :
    id ∉ log'.inner.pendingReady := by
  unfold Oplog.rejectPendingSubtree at h
  rcases L.buffer.ok.reject_removes (E.reserve log.writes 0) id with ⟨e, hrej⟩ | ⟨k, p', hrej, hdrops, -⟩
  · rw [hrej] at h
    cases h
  · rcases L.buffer.reject (E.reserve log.writes 0) id with ⟨e, -, hrej'⟩ | ⟨k', p'', hrej', B, -⟩
    · rw [hrej] at hrej'
      cases hrej'
    · rw [hrej] at hrej' h
      cases hrej'
      cases h
      intro hready
      obtain ⟨rec, hrec, -⟩ := (B.ok.ready id).1 hready
      obtain ⟨hold, hstay⟩ := (hdrops id rec).1 hrec
      exact hstay ⟨mem_pendingRecords.2 ⟨rec, hold⟩, Or.inl rfl⟩

/-- **Taking a queued op** accounts for it: it left the ready index, or it was retained. -/
theorem drainQueue_accounts (heff : EffectsOK effects) (D : DrainOK E K P log₀ pool d log)
    (hvisits : ReflTransGen (DrainStep E V verified effects) start (d₀, log))
    (hround : drainRound E V verified effects d₀ log = drainQueue E V verified effects d log)
    (hnext : ∀ q queue, d.queue = q :: queue → d₀.next log = some q)
    (hheld : ∀ id ∈ d.heldBack, Retained E V verified effects start id)
    (hpassed : d.passAdmitted = false → ∀ id ∈ log.inner.pendingReady, (∃ c, d.cursor = some c ∧ id ≤ c) →
      id ∈ queueIds d.queue ∨ Retained E V verified effects start id) :
    (drainQueue E V verified effects d log).Post (Accounted E V verified effects start)
      (Finished E V verified effects start) fun _ _ _ => True := by
  have hstep : ∀ {d' log'}, drainQueue E V verified effects d log = .continue d' log' →
      ReflTransGen (DrainStep E V verified effects) start (d', log') := fun h => hvisits.tail (hround.trans h)
  cases hq : d.queue with
  | nil =>
    have hflow : drainQueue E V verified effects d log = .continue d log := by
      unfold drainQueue
      rw [hq]
    rw [hflow]
    exact ⟨hstep hflow, hheld, hpassed⟩
  | cons q queue =>
    obtain ⟨op, hs⟩ := D.queue q (hq ▸ mem_cons_self)
    have ⟨hpending, hops, hP, hvalid, hdeps⟩ := hs
    have hnext' : d₀.next log = some ⟨q.source, [op], true⟩ := by
      rw [hnext q queue hq, ← hops, ← hpending]
    have hids : queueIds d.queue = op.id :: queueIds queue := by
      rw [hq, queueIds_cons, hops]
      rfl
    -- what was passed and is still ready is accounted for once the op itself is
    have rest : ∀ {log₁ : Oplog}, (∀ k, k ∈ log₁.inner.pendingReady → k ∈ log.inner.pendingReady) →
        (op.id ∈ log₁.inner.pendingReady → Retained E V verified effects start op.id) → d.passAdmitted = false →
        ∀ id ∈ log₁.inner.pendingReady, (∃ c, d.cursor = some c ∧ id ≤ c) →
          id ∈ queueIds queue ∨ Retained E V verified effects start id := by
      intro log₁ hsub hop hpass id hid hc
      rcases hpassed hpass id (hsub id hid) hc with hin | hret
      · rw [hids] at hin
        rcases mem_cons.1 hin with rfl | hin
        · exact Or.inr (hop hid)
        · exact Or.inl hin
      · exact Or.inr hret
    rcases takeOp_spec V q.source verified D.ok hP hvalid hdeps heff with
      ⟨acc, log₁, h, -, -, hquiet⟩ | ⟨e, log₁, h, -, -, B⟩
    · have hflow := drainQueue_ok hq hops h
      have hv := hstep hflow
      rw [hflow]
      refine ⟨hv, hheld, fun hpass => ?_⟩
      have hpass' : d.passAdmitted = false ∧ acc.isEmpty = true := by simpa [Drain.record] using hpass
      have hacc : acc = ∅ := ExtTreeSet.isEmpty_iff.1 hpass'.2
      subst hacc
      obtain ⟨B, hleft⟩ := hquiet rfl
      refine rest B.step.ready (fun hready => ?_) hpass'.1
      obtain ⟨rec, hrec, hempty⟩ := (D.ok.buffer.ok.ready op.id).1 (B.step.ready _ hready)
      have hnew : log.inner.ops[op.id]? = none := by
        cases hx : log.inner.ops[op.id]? with
        | none => rfl
        | some x =>
          have := D.ok.apart.ready op.id rec hrec hempty
          rw [D.ok.records.depResolvable_iff.2 ⟨x, hx⟩] at this
          cases this
      have hbarred := (hleft hnew).resolve_left fun hno => hno hready
      exact ⟨d₀, log, q.source, op, hvisits, hnext', rfl, by rw [h]; exact ⟨rfl, hbarred⟩⟩
    · have hflow := drainQueue_error hq hops h
      cases hverdict : pendingVerdict log₁.inner.toRecords op e with
      | error e' =>
        rw [hflow, failBatch_undecided hpending hops hverdict]
        trivial
      | ok verdict =>
        have B' := B.logged (log₁.debug ++ [(op.id, e)])
        cases verdict with
        | reject =>
          rw [failBatch_reject hpending hops hverdict] at hflow
          rcases rejectPendingSubtree_spec B'.ok op.id with ⟨e', log₂, hrej, -⟩ | ⟨log₂, hrej, B₂⟩
          · rw [hrej] at hflow
            rw [hflow]
            trivial
          · rw [hrej] at hflow
            have hv := hstep hflow
            rw [hflow]
            refine ⟨hv, hheld, rest (fun k hk => B.step.ready k (B₂.step.ready k hk)) fun hready => ?_⟩
            exact absurd hready (rejectPendingSubtree_gone B'.ok hrej)
        | retain =>
          rw [failBatch_retain hpending hops hverdict] at hflow
          have hret : Retained E V verified effects start op.id :=
            ⟨d₀, log, q.source, op, hvisits, hnext', rfl, by rw [h]; exact hverdict⟩
          split at hflow
          · rw [hflow]
            exact fun hremaining => by cases hremaining
          · have hv := hstep hflow
            rw [hflow]
            refine ⟨hv, fun id hid => ?_, rest B.step.ready fun _ => hret⟩
            rcases mem_insert.1 hid with hid | hid
            · rw [← Std.compare_eq_iff_eq.1 hid]
              exact hret
            · exact hheld id hid

/-! ## Passes over the ready index -/

theorem mem_readyAfter {p : PendingIndex} {cursor : Option OpId} {id : OpId} :
    id ∈ readyAfter p cursor ↔ id ∈ p.pendingReady ∧ ¬∃ c, cursor = some c ∧ id ≤ c := by
  unfold readyAfter
  rw [List.mem_filter, mem_toList]
  cases cursor with
  | none => simp
  | some after => simp

/-- A slice holds every ready id between the cursor and its last id. -/
theorem mem_take_readyAfter {p : PendingIndex} {cursor : Option OpId} {limit : ℕ} {last id : OpId}
    (h : ((readyAfter p cursor).take limit).getLast? = some last) (hid : id ∈ readyAfter p cursor)
    (hle : id ≤ last) :
    id ∈ (readyAfter p cursor).take limit := by
  have hsorted : (readyAfter p cursor).Pairwise (· < ·) :=
    (ordered_toList.imp fun h => compare_lt_iff_lt.1 h).filter _
  rw [← take_append_drop limit (readyAfter p cursor)] at hsorted hid
  refine (mem_append.1 hid).resolve_right fun hdrop => ?_
  have hlt := (pairwise_append.1 hsorted).2.2 last (mem_of_getLast? h) id hdrop
  exact hlt.not_ge hle

/-- **One round accounts for what its cursor has passed**, and a finished loop for everything that is ready. -/
theorem drainRound_accounts (heff : EffectsOK effects) (D : DrainOK E K P log₀ pool d log)
    (A : Accounted E V verified effects start d log) :
    (drainRound E V verified effects d log).Post (Accounted E V verified effects start)
      (Finished E V verified effects start) fun _ _ _ => True := by
  have ok := D.ok.buffer.ok
  cases hq : d.queue with
  | cons q queue =>
    have hround : drainRound E V verified effects d log = drainQueue E V verified effects d log := by
      unfold drainRound
      rw [if_neg (by simp [hq])]
    rw [hround]
    refine drainQueue_accounts heff D A.visits hround (fun q' queue' hq' => ?_) A.held A.passed
    unfold Drain.next
    rw [if_neg (by simp [hq]), hq', head?_cons]
  | nil =>
    have hempty : d.queue.isEmpty = true := by simp [hq]
    -- a pass begun again has passed nothing
    have again : ∀ {d'}, drainRound E V verified effects d log = .continue d' log → d'.heldBack = d.heldBack →
      d'.cursor = none →
        Accounted E V verified effects start d' log := by
      intro d' hflow hheld hcursor
      refine ⟨A.visits.tail hflow, hheld ▸ A.held, fun _ id _ hc => ?_⟩
      obtain ⟨c, hc, -⟩ := hc
      rw [hcursor] at hc
      cases hc
    by_cases hdrained : d.drained ≥ maxDrainOps
    · by_cases hwindow : d.windowAdmitted = true
      · have hflow : drainRound E V verified effects d log =
            .continue { d with drained := 0, windowAdmitted := false, cursor := none, passAdmitted := false }
              log := by
          unfold drainRound
          rw [if_pos hempty, if_pos hdrained, if_pos hwindow]
        have hagain := again hflow rfl rfl
        rw [hflow]
        exact hagain
      · have hflow : drainRound E V verified effects d log = .done { d with
            admitted := { d.admitted with readyRemaining :=
              !(log.inner.readyPendingAfter none 1).isEmpty } } log := by
          unfold drainRound
          rw [if_pos hempty, if_pos hdrained, if_neg hwindow]
        rw [hflow]
        intro hremaining id hid
        have hnone : log.inner.readyPendingAfter none 1 = [] := by simpa using hremaining
        have hids := readyPendingAfter_ids ok none 1
        rw [hnone, map_nil, eq_comm, take_eq_nil_iff] at hids
        have hall : readyAfter log.inner.toPendingIndex none = [] := hids.resolve_left (by decide)
        have hin : id ∈ readyAfter log.inner.toPendingIndex none := mem_readyAfter.2 ⟨hid, by simp⟩
        rw [hall] at hin
        simp at hin
    · have hids := readyPendingAfter_ids ok d.cursor readySlice
      cases hlast : (log.inner.readyPendingAfter d.cursor readySlice).getLast? with
      | none =>
        by_cases hpass : d.passAdmitted = true
        · have hflow : drainRound E V verified effects d log = .continue
              { d with cursor := none, passAdmitted := false } log := by
            unfold drainRound
            rw [if_pos hempty, if_neg hdrained]
            dsimp only
            rw [hlast]
            dsimp only
            rw [if_pos hpass]
          have hagain := again hflow rfl rfl
          rw [hflow]
          exact hagain
        · have hflow : drainRound E V verified effects d log = .done d log := by
            unfold drainRound
            rw [if_pos hempty, if_neg hdrained]
            dsimp only
            rw [hlast]
            dsimp only
            rw [if_neg hpass]
          rw [hflow]
          intro _ id hid
          -- nothing is ready ahead of the cursor, so the id was passed
          rw [getLast?_eq_none_iff.1 hlast, map_nil, eq_comm, take_eq_nil_iff] at hids
          have hall : readyAfter log.inner.toPendingIndex d.cursor = [] := hids.resolve_left (by decide)
          have hc : ∃ c, d.cursor = some c ∧ id ≤ c := by
            by_contra hno
            have hin := mem_readyAfter.2 ⟨hid, hno⟩
            rw [hall] at hin
            simp at hin
          refine (A.passed (Bool.eq_false_iff.2 hpass) id hid hc).resolve_left fun hin => ?_
          simp [hq, queueIds] at hin
      | some last =>
        have hlast' : ((readyAfter log.inner.toPendingIndex d.cursor).take readySlice).getLast? =
            some last.2.id := by
          rw [← hids, getLast?_map, hlast]
          rfl
        have D' : DrainOK E K P log₀ pool { d with
            cursor := some last.2.id
            drained := d.drained + (log.inner.readyPendingAfter d.cursor readySlice).length
            queue := queueSlice ((log.inner.readyPendingAfter d.cursor readySlice).filter fun e =>
              decide (e.2.id ∉ d.heldBack)) } log :=
          (D.load hq hlast fun e => decide (e.2.id ∉ d.heldBack)).1
        have hround : drainRound E V verified effects d log = drainQueue E V verified effects { d with
            cursor := some last.2.id
            drained := d.drained + (log.inner.readyPendingAfter d.cursor readySlice).length
            queue := queueSlice ((log.inner.readyPendingAfter d.cursor readySlice).filter fun e =>
              decide (e.2.id ∉ d.heldBack)) } log := by
          unfold drainRound
          rw [if_pos hempty, if_neg hdrained]
          dsimp only
          rw [hlast]
          rfl
        rw [hround]
        refine drainQueue_accounts heff D' A.visits hround (fun q' queue' hq' => ?_) A.held
          fun hpass id hid hc => ?_
        · unfold Drain.next
          rw [if_pos hempty, if_neg hdrained]
          have hhead := congrArg List.head? hq'
          rw [head?_cons] at hhead
          rw [← hhead]
          unfold queueSlice
          rw [head?_map]
        · obtain ⟨c, hc, hle⟩ := hc
          cases hc
          by_cases hold : ∃ c, d.cursor = some c ∧ id ≤ c
          · rcases A.passed hpass id hid hold with hin | hret
            · simp [hq, queueIds] at hin
            · exact Or.inr hret
          · have hin := mem_take_readyAfter hlast' (mem_readyAfter.2 ⟨hid, hold⟩) hle
            rw [← hids] at hin
            obtain ⟨e, he, rfl⟩ := mem_map.1 hin
            by_cases hheld : e.2.id ∈ d.heldBack
            · exact Or.inr (A.held _ hheld)
            · left
              rw [queueIds_queueSlice]
              exact mem_map.2 ⟨e, List.mem_filter.2 ⟨he, by simpa using hheld⟩, rfl⟩

/-! ## The whole call -/

/-- **A drain returns and misses nothing**: when it leaves no more to do, every op that is still ready was
attempted in one of its rounds and kept. -/
theorem drain_complete (h : Reached E log) (V : View) (source : Option PeerId)
    (hver : ∀ op ∈ ops, op.id ∈ verified → E.Valid op) (heff : EffectsOK effects) :
    ∃ res log', receiveOpsAdmission E V verified effects log source ops = some (res, log') ∧
      ∀ admitted, res = .ok admitted → admitted.readyRemaining = false →
        ∀ id ∈ log'.inner.pendingReady, Retained E V verified effects (Drain.start source ops, log) id := by
  have L := h.logOK
  obtain ⟨res, log', hres, -⟩ := receiveOpsAdmission_spec V source L (fun _ _ => trivial) hver heff
  refine ⟨res, log', hres, fun admitted hadmitted hremaining => ?_⟩
  subst hadmitted
  -- from a state of the invariant on, whatever the first round was
  have hloop : ∀ {d log₁ fuel d' log'}, DrainOK E False (fun _ => True) log
    (drainPool log (ops.map Op.id)) d log₁ →
      Accounted E V verified effects (Drain.start source ops, log) d log₁ →
      drainLoop E V verified effects fuel d log₁ = some (.ok (), d', log') →
      Finished E V verified effects (Drain.start source ops, log) d' log' := by
    intro d log₁ fuel d' log' D A hloop
    refine drainLoop_result (I := fun d log₁ => DrainOK E False (fun _ => True) log
      (drainPool log (ops.map Op.id)) d log₁ ∧ Accounted E V verified effects
      (Drain.start source ops, log) d log₁) (fun d log₁ ⟨D, A⟩ => ?_) ⟨D, A⟩ hloop rfl
    have hsound := drainRound_spec V verified L.records heff D
    have haccounts := drainRound_accounts heff D A
    unfold Rounds at hsound
    cases hflow : drainRound E V verified effects d log₁ with
    | «continue» d₁ log₂ =>
      rw [hflow] at hsound haccounts
      exact ⟨hsound.1, haccounts⟩
    | done d₁ log₂ =>
      rw [hflow] at haccounts
      exact haccounts
    | fail e d₁ log₂ => trivial
  unfold receiveOpsAdmission at hres
  split at hres
  · cases hres
  · rename_i d' log₂ hrun
    cases hres
    by_cases hops : ops = []
    · subst hops
      have D : DrainOK E False (fun _ => True) log (drainPool log []) (Drain.start source []) log :=
        (Buffers.refl L _).took.drainOK (fun _ _ => .refl _) rfl rfl rfl
      exact hloop D ⟨.refl, by simp [Drain.start], fun _ id _ hc => by simp [Drain.start] at hc⟩ hrun hremaining
    · rw [drainLoop_start hops] at hrun
      obtain ⟨res, log₁, hfirst, hs, -⟩ := admitWithRetry_spec V source L (fun _ _ => trivial) hver heff
      have hround : drainRound E V verified effects (Drain.start source ops) log =
          drainQueue E V verified effects { queue := [⟨source, ops, false⟩] } log := by
        unfold drainRound
        rw [if_neg (by simp [Drain.start, hops])]
        simp [Drain.start, hops]
      rw [hfirst] at hrun
      cases res with
      | error e => cases hrun
      | ok res =>
        obtain ⟨acc, ev⟩ := res
        obtain ⟨T, hquiet⟩ := hs
        have D : DrainOK E False (fun _ => True) log (drainPool log (ops.map Op.id))
          (Drain.record { queue := [] } acc ev) log₁ :=
          T.drainOK (fun h1 h2 => (hquiet h1 h2).quiet) rfl (ext_mem fun id => by simp [Drain.record])
            (by simp [Drain.record])
        have hstep : DrainStep E V verified effects (Drain.start source ops, log)
            (Drain.record { queue := [] } acc ev, log₁) := by
          unfold DrainStep
          rw [hround]
          unfold drainQueue
          dsimp only
          rw [hfirst]
        exact hloop D ⟨.single hstep, by simp [Drain.record], fun _ id _ hc => by simp [Drain.record] at hc⟩
          hrun hremaining
  · cases hres

/-! The store runs out of memory while it admits an op that the genesis made ready. -/

/-- The fifth write attempted is refused. -/
def shortEnv : Env :=
  { pairEnv with faults := fun n _ => if n = 4 then some (.pressure .operations 1 0) else none }

/-- The event arrives before the genesis. -/
def shortRun : List NodeEvent := [{ op := .receiveOps none [pairEvent] none }]

/-- The node that buffers it. -/
def shortNode : Node := (Node.fresh (IdType.ofNat 1) .memory).run shortEnv shortRun

/-- Its oplog. -/
def shortLog : Oplog := shortNode.oplog shortNode.storage.inner

theorem shortLog_reached : Reached shortEnv shortLog := by
  unfold shortLog shortNode
  exact Reached.active _ _ _

theorem drain_complete_short : ∃ admitted log', receiveOpsAdmission shortEnv {} ∅ none shortLog none
    [pairGenesis] = some (.ok admitted, log') ∧ admitted.readyRemaining = false ∧
    pairEvent.id ∈ log'.inner.pendingReady ∧
      Retained shortEnv {} ∅ none (Drain.start none [pairGenesis], shortLog) pairEvent.id := by
  have hrun : (receiveOpsAdmission shortEnv {} ∅ none shortLog none [pairGenesis]).any (fun res => match res with
      | (.ok admitted, log') => !admitted.readyRemaining && decide (pairEvent.id ∈ log'.inner.pendingReady)
      | (.error _, _) => false) = true := by decide +kernel
  obtain ⟨res, log', h, hkept⟩ : ∃ res log', receiveOpsAdmission shortEnv {} ∅ none shortLog none [pairGenesis] =
    some (res, log') ∧
      ∀ admitted, res = .ok admitted → admitted.readyRemaining = false → ∀ id ∈ log'.inner.pendingReady,
        Retained shortEnv {} ∅ none (Drain.start none [pairGenesis], shortLog) id :=
    drain_complete shortLog_reached {} none (by simp) (by intro; simp)
  rw [h, Option.any_some] at hrun
  cases res with
  | error e => cases hrun
  | ok admitted =>
    have hrun' : admitted.readyRemaining = false ∧ pairEvent.id ∈ log'.inner.pendingReady := by simpa using hrun
    exact ⟨admitted, log', h, hrun'.1, hrun'.2, hkept admitted rfl hrun'.1 _ hrun'.2⟩

end Irokle
