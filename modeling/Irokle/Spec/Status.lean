import Irokle.Lib.Greatest
import Irokle.Spec.Inner

/-!
# Sync status of a peer

What a store records about the sync attempts with a peer (`src/storage/evidence.rs`), and the update
of such a record in a memory store (`update_sync_status` of `src/storage/memory/mod.rs`).
-/

namespace Irokle

open Std

/-- `MAX_RECENT_ATTEMPTS`. -/
def maxRecentAttempts : ℕ := 32

/-- How one update moves the stored sync state. -/
inductive SyncStateUpdate
  | keep
  | set (state : SyncPeerState)
  | behindUnlessFailed
deriving DecidableEq

/-- One change to a status. The outer `none` of `lastError` keeps the stored error, the inner one clears it. -/
structure SyncStatusUpdate where
  successfulAttempts : ℕ := 0
  failedAttempts : ℕ := 0
  state : SyncStateUpdate := .keep
  pendingObligations : Option ℕ := none
  lastAttemptMs : Option ℕ := none
  lastSuccessMs : Option ℕ := none
  lastError : Option (Option String) := none
  expectedAttempts : Option ℕ := none
  attempt : Option Attempt := none
deriving DecidableEq

/-- Add counts that do not overflow. -/
def countAdd (a b : ℕ) : ℕ := min (a + b) (u64Size - 1)

/-- The later of a stored time and an update's, when it has one. -/
def latestMs (stored update : Option ℕ) : Option ℕ :=
  match update with
  | some ms => some (max (stored.getD ms) ms)
  | none => stored

/-- `stale_outcome`. -/
def staleOutcome (status : SyncPeerStatus) (update : SyncStatusUpdate) : Bool :=
  match update.lastAttemptMs with
  | none => false
  | some attemptMs =>
    status.lastAttemptMs.any (fun newest => decide (attemptMs < newest)) ||
      decide (update.failedAttempts > 0 ∧ update.successfulAttempts = 0) &&
        status.lastSuccessMs.any fun ok => decide (attemptMs ≤ ok)

/-- The counts and times of an update, and its gauges when it is `current`; whether the status changed. -/
def recordUpdate (status : SyncPeerStatus) (update : SyncStatusUpdate) (current : Bool) : Bool × SyncPeerStatus :=
  let counted := decide (update.successfulAttempts > 0 ∨ update.failedAttempts > 0 ∨ update.attempt.isSome)
  let status := { status with
    successfulAttempts := countAdd status.successfulAttempts update.successfulAttempts
    failedAttempts := countAdd status.failedAttempts update.failedAttempts
    lastAttemptMs := latestMs status.lastAttemptMs update.lastAttemptMs
    lastSuccessMs := latestMs status.lastSuccessMs update.lastSuccessMs }
  if !current then (counted, status)
  else (true, { status with
    pendingObligations := update.pendingObligations.getD status.pendingObligations
    lastError := update.lastError.getD status.lastError
    state := match update.state with
      | .keep => status.state
      | .set state => state
      | .behindUnlessFailed => if status.state ≠ .failed then .behind else status.state })

/-- `apply_status_update`. -/
def applyStatusUpdate (status : SyncPeerStatus) (update : SyncStatusUpdate) : Bool × SyncPeerStatus :=
  let attempts := countAdd status.successfulAttempts status.failedAttempts
  let expected := update.expectedAttempts.all fun want => decide (want = attempts)
  match update.attempt with
  | some attempt =>
    if status.latestAttempt = some attempt ∨ attempt ∈ status.recentAttempts then (false, status)
    else
      let current := expected && status.latestAttempt.all fun latest => decide (attempt > latest)
      let status := { status with
        -- pushed, sorted, and the oldest dropped
        recentAttempts := Greatest.keep maxRecentAttempts status.recentAttempts attempt
        latestAttempt := if current then some attempt else status.latestAttempt }
      recordUpdate status update current
  | none => recordUpdate status update (expected && !staleOutcome status update)

/-- `new_peer_status`. -/
def newPeerStatus (peer : PeerId) (t : TopicId) : SyncPeerStatus where
  peerId := peer
  topicId := t
  state := .idle
  pendingObligations := 0
  failedAttempts := 0
  successfulAttempts := 0
  lastAttemptMs := none
  lastSuccessMs := none
  lastError := none
  latestAttempt := none
  recentAttempts := []

namespace Evidence

variable (v : Evidence)

/-- The status of a peer, or the one a store starts from. -/
def statusOf (peer : PeerId) (t : TopicId) : SyncPeerStatus :=
  v.syncStatuses[(t, peer)]?.getD (newPeerStatus peer t)

/-- `update_sync_status`: a rejected update leaves no record behind for a peer that had none. -/
def updateSyncStatus (reserve : ℕ → Result Unit) (peer : PeerId) (t : TopicId) (update : SyncStatusUpdate) :
    Result (SyncPeerStatus × Evidence) := do
  reserve 0
  match applyStatusUpdate (v.statusOf peer t) update with
  | (true, status) =>
    reserve 1
    reserve 2
    return (status, { v with syncStatuses := v.syncStatuses.insert (t, peer) status })
  | (false, status) => return (status, v)

end Evidence

/-- A call of `update_sync_status`, with the answers of its reservations. -/
structure StatusCall where
  peer : PeerId
  topicId : TopicId
  update : SyncStatusUpdate
  reserve : ℕ → Result Unit := fun _ => .ok ()

/-- The evidence after a call, which a failed one leaves as it was. -/
def StatusCall.run (v : Evidence) (c : StatusCall) : Evidence :=
  match v.updateSyncStatus c.reserve c.peer c.topicId c.update with
  | .ok (_, v) => v
  | .error _ => v

end Irokle
