import Irokle.Spec.Types

/-!
# Progress toward a goal

What one attempt to sync a topic with a peer sets out to reach is captured when it is planned
(`src/iroh/mod.rs`). Progress counts the positions of the goal's clocks that are covered; the counts are
sums of `u64`, which wrap in a release build and panic in one with overflow checks.
-/

namespace Irokle

open Std

/-- `TopicGoal`. -/
structure TopicGoal where
  /-- Whether the topic was not held when planned. -/
  pull : Bool := false
  genesis : Option OpId
  /-- The losing local genesis that a branch pull replaces. -/
  replaces : Option OpId := none
  /-- The peer's clock from its summary. -/
  inbound : ActorClock
  /-- The local clock the peer should certify. -/
  outbound : ActorClock

/-- `GoalProgress`. -/
structure GoalProgress where
  inbound : ℕ := 0
  outbound : ℕ := 0
  holes : ℕ := 0
  staged : ℕ := 0
  requested : ℕ := 0
deriving DecidableEq

/-- What `covered` sums up. -/
def coveredTerms (clock target : ActorClock) : List ℕ := target.toList.map fun e => min (clock.get e.1) e.2

/-- `covered`: the positions of `target` that `clock` covers, as a release build sums them. -/
def covered (clock target : ActorClock) : ℕ :=
  (coveredTerms clock target).foldl (fun sum n => (sum + n) % u64Size) 0

/-- The same sum in a build with overflow checks: `none` where an addition overflows. -/
def coveredChecked (clock target : ActorClock) : Option ℕ :=
  (coveredTerms clock target).foldlM (fun sum n => if sum + n < u64Size then some (sum + n) else none) 0

namespace GoalProgress

/-- `GoalProgress::reached`. -/
def reached (p : GoalProgress) (goal : TopicGoal) : Bool :=
  decide (p.inbound = covered goal.inbound goal.inbound) &&
    decide (p.outbound = covered goal.outbound goal.outbound) && decide (p.holes = 0)

/-- `GoalProgress::advanced_from`. -/
def advancedFrom (p before : GoalProgress) : Bool :=
  decide (before.inbound < p.inbound) || decide (before.outbound < p.outbound) ||
    decide (p.holes < before.holes) || decide (before.staged < p.staged) ||
    decide (before.requested < p.requested)

end GoalProgress

/-- The view of a topic that progress is measured on: its branch and clock, the peer's ack, and the holes left. -/
structure GoalView where
  genesis : OpId
  clock : ActorClock
  ack : Option PeerAck := none
  unresolved : BTreeSet OpId := ∅

/-- What `goal_progress` reads: the view, what this node staged of the goal's branch from the peer, the peer's
receipts for the active branch, and the revision of the request log. -/
structure GoalReads where
  view : Option GoalView
  stagedClock : ActorClock := ∅
  receiptClock : Option ActorClock := none
  revision : ℕ := 0

/-- `goal_progress`. -/
def goalProgress (reads : GoalReads) (goal : TopicGoal) : Except String GoalProgress :=
  match reads.view with
  | none =>
    if goal.pull = false then .error "topic disappeared during sync"
    else .ok { staged := covered reads.stagedClock goal.inbound, requested := reads.revision }
  | some view =>
    if goal.replaces = some view.genesis then .ok {}
    else if goal.genesis ≠ some view.genesis then .error "topic branch changed during sync"
    else
      let certified := ((view.ack.filter fun ack => decide (ack.genesis = some view.genesis)).map
        (·.clock)).getD ∅
      .ok {
        inbound := covered view.clock goal.inbound
        outbound := covered certified goal.outbound
        staged := (reads.receiptClock.map fun clock => covered clock goal.outbound).getD 0
        requested := reads.revision
        holes := view.unresolved.size }

/-- The outcome of an exchange for one topic: complete, served again at the tail of the queue, or failed. -/
inductive ExchangeOutcome
  | complete
  | advancing
  | failed (message : String)
deriving DecidableEq

/-- The outcome that `run_batch_exchange` measures. -/
def exchangeOutcome (goal : TopicGoal) (before : GoalProgress) (after : Except String GoalProgress)
    (more : Bool) : ExchangeOutcome :=
  match after with
  | .ok after =>
    if after.reached goal && !more then .complete
    else if after.advancedFrom before then .advancing
    else .failed "sync exchange made no progress"
  | .error message => .failed message

end Irokle
