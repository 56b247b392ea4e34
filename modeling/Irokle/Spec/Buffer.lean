import Irokle.Spec.Inner

/-!
# Buffered ops

An op whose dependencies are not all stored waits in the pending buffer
(`src/storage/memory/mod.rs`): its record names what it misses, the waiter index inverts that,
and an op that misses nothing is in the ready index until admission takes it.
-/

namespace Irokle

open Std

/-- `PendingUsage::charged`. -/
def PendingUsage.charged (u : PendingUsage) (bytes : ℕ) : PendingUsage := ⟨u.ops + 1, u.bytes + bytes⟩

/-- `PendingUsage::refunded`: underflow means the counters no longer describe the records. -/
def PendingUsage.refunded (u : PendingUsage) (bytes : ℕ) : Result PendingUsage :=
  if 1 ≤ u.ops ∧ bytes ≤ u.bytes then .ok ⟨u.ops - 1, u.bytes - bytes⟩
  else .error (.storage "pending accounting does not match the buffered records")

/-- The usage of one scope, nothing when it has no entry. -/
def usageOf {κ : Type} [Ord κ] [TransOrd κ] (m : BTreeMap κ PendingUsage) (k : κ) : PendingUsage :=
  m[k]?.getD ⟨0, 0⟩

/-- Store a scope's usage, dropping the entry of a scope that holds nothing. -/
def putUsage {κ : Type} [Ord κ] [TransOrd κ] (m : BTreeMap κ PendingUsage) (k : κ) (u : PendingUsage) :
    BTreeMap κ PendingUsage :=
  if u = ⟨0, 0⟩ then m.erase k else m.insert k u

/-- Keep the newest `maxRejectedPerTopic` rejected ids. -/
def RejectedIds.bound (r : RejectedIds) : RejectedIds :=
  let surplus := r.order.length - maxRejectedPerTopic
  ⟨r.order.drop surplus, (r.order.take surplus).foldl (fun ids id => ids.erase id) r.ids⟩

/-- Mark each id of a rejected subtree once. -/
def RejectedIds.mark (r : RejectedIds) (ids : List OpId) : RejectedIds :=
  ids.foldl (fun r id => if id ∈ r.ids then r else ⟨r.order ++ [id], r.ids.insert id⟩) r

namespace PendingIndex

variable (p : PendingIndex)

/-- `pending_entry_locked`. -/
def entry (id : OpId) : Option (PeerId × Op) :=
  match p.pendingRecords[id]?, p.pendingOps[id]? with
  | some record, some op => some (record.source, op)
  | _, _ => none

/-- `Storage::ready_pending_after`: ready ops in id order after a cursor. -/
def readyPendingAfter (after : Option OpId) (limit : ℕ) : List (PeerId × Op) :=
  ((p.pendingReady.toList.filter fun id => match after with
    | some after => decide (after < id)
    | none => true).take limit).filterMap p.entry

/-- `unwait_locked` for each of `deps`. -/
def unwaitAll (waiters : BTreeMap OpId (BTreeSet OpId)) (deps : List OpId) (id : OpId) :
    BTreeMap OpId (BTreeSet OpId) :=
  deps.foldl (fun w dep => SetMap.erase w dep id) waiters

/-- Let `id` wait on each of `deps`. -/
def waitAll (waiters : BTreeMap OpId (BTreeSet OpId)) (deps : List OpId) (id : OpId) :
    BTreeMap OpId (BTreeSet OpId) :=
  deps.foldl (fun w dep => SetMap.insert w dep id) waiters

/-- `remove_pending_locked`. Refunds are checked before anything changes. -/
def removePendingLocked (id : OpId) : Result PendingIndex :=
  match p.pendingRecords[id]? with
  | none => .ok p
  | some record => do
    let total ← p.pendingUsage.refunded record.charge
    let source ← (usageOf p.sourceUsage record.source).refunded record.charge
    let topic ← (usageOf p.topicUsage record.topicId).refunded record.charge
    .ok { p with
      pendingRecords := p.pendingRecords.erase id
      pendingUsage := total
      sourceUsage := putUsage p.sourceUsage record.source source
      topicUsage := putUsage p.topicUsage record.topicId topic
      pendingWaiters := unwaitAll p.pendingWaiters record.missing.toList id
      pendingByTopic := SetMap.erase p.pendingByTopic record.topicId id
      pendingReady := p.pendingReady.erase id
      pendingOps := p.pendingOps.erase id }

/-- `Storage::remove_pending_op`. -/
def removePendingOp (id : OpId) : Result Unit × PendingIndex :=
  match p.removePendingLocked id with
  | .ok p' => (.ok (), p')
  | .error e => (.error e, p)

/-- Remove several ops, keeping what was removed when one fails. -/
def removeAll (p : PendingIndex) : List OpId → Result Unit × PendingIndex
  | [] => (.ok (), p)
  | id :: ids =>
    match p.removePendingLocked id with
    | .ok p' => removeAll p' ids
    | .error e => (.error e, p)

/-- One waiter of an admitted op stops waiting on it. -/
def settleWaiter (admitted : OpId) (p : PendingIndex) (waiter : OpId) : PendingIndex :=
  match p.pendingRecords[waiter]? with
  | none => p
  | some record =>
    let missing := record.missing.erase admitted
    { p with
      pendingRecords := p.pendingRecords.insert waiter { record with missing := missing }
      pendingReady := if missing.isEmpty then p.pendingReady.insert waiter else p.pendingReady }

/-- `settle_waiters_locked`. -/
def settleWaitersLocked (admitted : OpId) : PendingIndex :=
  (SetMap.get p.pendingWaiters admitted).toList.foldl (settleWaiter admitted)
    { p with pendingWaiters := p.pendingWaiters.erase admitted }

/-- Push the ids not seen yet, newest on top. -/
def pushUnseen (ids : List OpId) (st : List OpId × BTreeSet OpId) : List OpId × BTreeSet OpId :=
  ids.foldl (fun st id => if id ∈ st.2 then st else (id :: st.1, st.2.insert id)) st

/-- The loop of `waiter_closure_locked`. -/
def waiterWalk (waiters : BTreeMap OpId (BTreeSet OpId)) :
    ℕ → List OpId → BTreeSet OpId → BTreeSet OpId
  | 0, _, seen => seen
  | _ + 1, [], seen => seen
  | fuel + 1, dep :: frontier, seen =>
    let next := pushUnseen (SetMap.get waiters dep).toList (frontier, seen)
    waiterWalk waiters fuel next.1 next.2

/-- `waiter_closure_locked`: the ops that transitively wait on `dep`, without it. Each waiter is
pushed once, so the waiter edges bound the walk. -/
def waiterClosureLocked (dep : OpId) : BTreeSet OpId :=
  (waiterWalk p.pendingWaiters ((p.pendingWaiters.toList.map (·.2.size)).sum + 2) [dep] ∅).erase dep

/-- `Storage::purge_pending_waiters`. -/
def purgePendingWaiters (dep : OpId) : Result ℕ × PendingIndex :=
  let closure := p.waiterClosureLocked dep
  match p.removeAll closure.toList with
  | (.ok (), p') => (.ok closure.size, p')
  | (.error e, p') => (.error e, p')

/-- `Storage::reject_pending_subtree`. -/
def rejectPendingSubtree (reserve : Result Unit) (id : OpId) : Result ℕ × PendingIndex :=
  match p.pendingRecords[id]? with
  | none => (.ok 0, p)
  | some record =>
    let subtree := (p.waiterClosureLocked id).insert id
    match reserve with
    | .error e => (.error e, p)
    | .ok () =>
      match p.removeAll subtree.toList with
      | (.error e, p') => (.error e, p')
      | (.ok (), p') =>
        let rejected := ((p'.rejected[record.topicId]?.getD {}).mark subtree.toList).bound
        (.ok subtree.size, { p' with rejected := p'.rejected.insert record.topicId rejected })

/-- Remove the buffered ops of one expired subtree and forget when they were first seen. -/
def expireIds (p : PendingIndex) (removed : BTreeSet OpId) :
    List OpId → Result (BTreeSet OpId) × PendingIndex
  | [] => (.ok removed, p)
  | id :: ids =>
    if p.pendingRecords.contains id then
      match p.removePendingLocked id with
      | .ok p' => expireIds { p' with pendingSince := p'.pendingSince.erase id } (removed.insert id) ids
      | .error e => (.error e, p)
    else expireIds p removed ids

/-- Remove each expired op with everything waiting on it. -/
def expireAll (p : PendingIndex) (removed : BTreeSet OpId) :
    List OpId → Result (BTreeSet OpId) × PendingIndex
  | [] => (.ok removed, p)
  | id :: ids =>
    match expireIds p removed ((p.waiterClosureLocked id).insert id).toList with
    | (.ok removed, p') => expireAll p' removed ids
    | (.error e, p') => (.error e, p')

/-- The ids first seen by this sweep start at `now`. -/
def sweepSince (now : ℕ) : BTreeMap OpId ℕ :=
  p.pendingRecords.keys.foldl (fun since id => if since.contains id then since else since.insert id now)
    (p.pendingSince.filter fun id _ => p.pendingRecords.contains id)

/-- `Storage::expire_pending`. -/
def expirePending (now maxIdle : ℕ) : Result ℕ × PendingIndex :=
  let since := p.sweepSince now
  let expired := p.pendingRecords.keys.filter fun id =>
    decide (min (since[id]?.getD now + maxIdle) (u64Size - 1) < now)
  match expireAll { p with pendingSince := since } ∅ expired with
  | (.ok removed, p') => (.ok removed.size, p')
  | (.error e, p') => (.error e, p')

end PendingIndex

end Irokle
