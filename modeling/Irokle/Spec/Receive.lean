import Irokle.Spec.Admission

/-!
# Receiving ops and draining the buffer

`receive_ops_admission` (`src/oplog/admission.rs`): the caller's batch first, then the ready
buffered ops in slices of the ready index. A pass restarts from the beginning when it admitted
something, and a window of visits restarts when it did; a window without admissions ends the call.
-/

namespace Irokle

open Std

/-- A queued batch: its source, its ops, and whether they come from the buffer. -/
structure Queued where
  source : Option PeerId
  ops : List Op
  fromPending : Bool

/-- The state of the drain loop. -/
structure Drain where
  queue : List Queued
  drained : ℕ := 0
  cursor : Option OpId := none
  passAdmitted : Bool := false
  windowAdmitted : Bool := false
  heldBack : BTreeSet OpId := ∅
  admitted : Admitted := ⟨∅, [], false⟩

/-- How one round of the loop ends. -/
inductive Flow
  | continue (d : Drain) (log : Oplog)
  | done (d : Drain) (log : Oplog)
  | fail (e : Error) (d : Drain) (log : Oplog)

section Receive

variable (E : Env) (V : View) (verified : BTreeSet OpId) (effects : Option ReceiveEffects)

/-- What a failed batch does: the caller's error ends the call, a buffered op is judged alone. -/
def failBatch (d : Drain) (log : Oplog) (q : Queued) (err : Error) : Flow :=
  if q.fromPending then
    match q.ops with
    | [op] =>
      match pendingVerdict log.inner.toRecords op err with
      | .error e => .fail e d log
      | .ok .reject =>
        match { log with debug := log.debug ++ [(op.id, err)] }.rejectPendingSubtree E op.id with
        | (.error e, log) => .fail e d log
        | (.ok (), log) => .continue d log
      | .ok .retain =>
        let log := { log with debug := log.debug ++ [(op.id, err)] }
        let d := { d with heldBack := d.heldBack.insert op.id }
        if err = .admissionConflict then
          .done { d with admitted := { d.admitted with readyRemaining := true } } log
        else .continue d log
    | ops => .continue { d with queue := d.queue ++ ops.map fun op => ⟨q.source, [op], true⟩ } log
  else .fail err d log

/-- What an admitted batch adds to the outcome. -/
def Drain.record (d : Drain) (accepted : BTreeSet OpId) (eviction : Option TopicEviction) : Drain :=
  { d with
    passAdmitted := d.passAdmitted || !accepted.isEmpty
    windowAdmitted := d.windowAdmitted || !accepted.isEmpty
    admitted := { d.admitted with
      accepted := d.admitted.accepted ∪ accepted
      evictions := d.admitted.evictions ++ eviction.toList } }

/-- Take the next queued batch, if any. -/
def drainQueue (d : Drain) (log : Oplog) : Flow :=
  match d.queue with
  | [] => .continue d log
  | q :: queue =>
    let d := { d with queue := queue }
    match log.admitWithRetry E V q.source q.ops verified effects with
    | (.ok (accepted, eviction), log) => .continue (d.record accepted eviction) log
    | (.error err, log) => failBatch E d log q err

/-- One round of the loop of `receive_ops_admission`. -/
def drainRound (d : Drain) (log : Oplog) : Flow :=
  if d.queue.isEmpty then
    if d.drained ≥ maxDrainOps then
      if d.windowAdmitted then
        .continue { d with drained := 0, windowAdmitted := false, cursor := none, passAdmitted := false } log
      else
        let remaining := !(log.inner.readyPendingAfter none 1).isEmpty
        .done { d with admitted := { d.admitted with readyRemaining := remaining } } log
    else
      let slice := log.inner.readyPendingAfter d.cursor readySlice
      match slice.getLast? with
      | none =>
        if d.passAdmitted then .continue { d with cursor := none, passAdmitted := false } log
        else .done d log
      | some last =>
        let fresh := slice.filter fun e => decide (e.2.id ∉ d.heldBack)
        drainQueue E V verified effects { d with
          cursor := some last.2.id
          drained := d.drained + slice.length
          queue := fresh.map fun e => ⟨some e.1, [e.2], true⟩ } log
  else drainQueue E V verified effects d log

/-- The loop, for at most `fuel` rounds; `none` when they do not suffice. -/
def drainLoop : ℕ → Drain → Oplog → Option (Result Unit × Drain × Oplog)
  | 0, _, _ => none
  | fuel + 1, d, log =>
    match drainRound E V verified effects d log with
    | .continue d log => drainLoop fuel d log
    | .done d log => some (.ok (), d, log)
    | .fail e d log => some (.error e, d, log)

/-- The first queue: the caller's batch, unless it is empty. -/
def Drain.start (source : Option PeerId) (ops : List Op) : Drain where
  queue := if ops.isEmpty then [] else [⟨source, ops, false⟩]

/-- Rounds that suffice: every admission removes a buffered op, and between two admissions the
ready index is passed over at most three times. -/
def drainFuel (log : Oplog) (ops : List Op) : ℕ :=
  let size := log.inner.pendingRecords.size + ops.length
  (size + 2) * (9 * size + 20)

/-- `receive_ops_admission`. -/
def receiveOpsAdmission (log : Oplog) (source : Option PeerId) (ops : List Op) :
    Option (Result Admitted × Oplog) :=
  match drainLoop E V verified effects (drainFuel log ops) (Drain.start source ops) log with
  | none => none
  | some (.ok (), d, log) => some (.ok d.admitted, log)
  | some (.error e, d, log) => some (.error (admissionFailure d.admitted e), log)

end Receive

/-- `receive_ops_from_peer_evicting`: no op was verified before, and nothing is committed beside
the ops. -/
def receiveOps (E : Env) (V : View) (log : Oplog) (source : Option PeerId) (ops : List Op) :
    Option (Result Admitted × Oplog) :=
  receiveOpsAdmission E V ∅ none log source ops

/-- The passes of `reconcile_pending_ops`. -/
def reconcilePasses (E : Env) (V : View) : ℕ → Oplog → BTreeSet OpId → Option (Result (BTreeSet OpId) × Oplog)
  | 0, _, _ => none
  | fuel + 1, log, accepted =>
    match receiveOps E V log none [] with
    | none => none
    | some (.error e, log) => some (.error e, log)
    | some (.ok pass, log) =>
      let accepted := accepted ∪ pass.accepted
      if pass.readyRemaining && !pass.accepted.isEmpty then reconcilePasses E V fuel log accepted
      else some (.ok accepted, log)

/-- `reconcile_pending_ops`: a pass that goes on has admitted a buffered op. -/
def reconcilePendingOps (E : Env) (V : View) (log : Oplog) : Option (Result (BTreeSet OpId) × Oplog) :=
  reconcilePasses E V (log.inner.pendingRecords.size + 2) log ∅

end Irokle
