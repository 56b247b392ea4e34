import Irokle.Spec.Ids
import Irokle.Lib.BTree

/-!
# The resync scheduler

The targets of `src/iroh/scheduler.rs`, their claims and the attempts that are live. Every method runs under the
lock of what it touches, so an interleaving of the tasks is a sequence of method calls; times are arguments of
the calls. A claim that `due_targets` returned is held by its caller, then by a lease, a guard or a completion,
until a completion or the drop of a lease or guard consumes it.
-/

namespace Irokle

open Std

/-- `ResyncTargetKey`. -/
abbrev ResyncTargetKey := PeerId × TopicId

/-- `ResyncTarget`: a claim. -/
structure ResyncTarget where
  key : ResyncTargetKey
  attempt : ℕ
  covered : ℕ
  force : Option ℕ
deriving DecidableEq

/-- `ScheduledResync`. -/
structure ScheduledResync where
  nextDue : ℕ
  failures : ℕ := 0
  requested : ℕ := 1
  active : Option ℕ := none
  force : Option ℕ := none

/-- `ResyncScheduler`, with the counter behind `next_attempt_id`. -/
structure ResyncScheduler where
  targets : BTreeMap ResyncTargetKey ScheduledResync := ∅
  live : Finset (ResyncTargetKey × ℕ) := ∅
  nextAttempt : ℕ := 1

namespace ResyncScheduler

variable (s : ResyncScheduler)

/-- `schedule_now`. -/
def scheduleNow (key : ResyncTargetKey) (force : Bool) (now : ℕ) : ResyncScheduler :=
  match s.targets[key]? with
  | some target =>
    let requested := saturatingAdd target.requested 1
    { s with targets := s.targets.insert key { target with
        requested := requested
        nextDue := if target.active.isNone ∧ (target.failures = 0 ∨ force) ∧ now < target.nextDue then now
          else target.nextDue
        force := if force then some requested else target.force } }
  | none => { s with targets := s.targets.insert key { nextDue := now, force := if force then some 1 else none } }

/-- `reconsider`. -/
def reconsider (key : ResyncTargetKey) (now : ℕ) : ResyncScheduler :=
  match s.targets[key]? with
  | some target =>
    if target.active.isSome then s
    else { s with targets := s.targets.insert key { target with
      nextDue := if target.failures = 0 ∧ now < target.nextDue then now else target.nextDue } }
  | none => { s with targets := s.targets.insert key { nextDue := now } }

/-- `peer_reachable`. -/
def peerReachable (peer : PeerId) (now : ℕ) : ResyncScheduler :=
  { s with targets := s.targets.map fun key target =>
      if key.1 = peer ∧ target.failures > 0 then
        { target with failures := 0, nextDue := if target.active.isNone ∧ target.nextDue > now then now
          else target.nextDue }
      else target }

/-- `busy_peers`. -/
def busyPeers : List PeerId := (s.targets.toList.filter fun e => e.2.active.isSome).map (·.1.1)

/-- The targets that `due_targets` may claim, by deadline and key. -/
def readyTargets (now : ℕ) : List (ℕ × ResyncTargetKey) :=
  ((s.targets.toList.filter fun e => decide (e.2.active = none ∧ e.2.nextDue ≤ now ∧ e.1.1 ∉ s.busyPeers)).map
    fun e => (e.2.nextDue, e.1)).mergeSort fun a b => (compare a b).isLE

/-- One ready target joins the turn of its peer, or opens one. -/
def joinTurn (maxPeers maxTargets : ℕ) (due : BTreeMap PeerId (List ResyncTargetKey)) (key : ResyncTargetKey) :
    BTreeMap PeerId (List ResyncTargetKey) :=
  match due[key.1]? with
  | some keys => if keys.length < maxTargets then due.insert key.1 (keys ++ [key]) else due
  | none => if due.size < maxPeers then due.insert key.1 [key] else due

/-- The targets that `due_targets` claims, peer by peer. -/
def dueKeys (maxPeers maxTargets now : ℕ) : List ResyncTargetKey :=
  (((s.readyTargets now).map Prod.snd).foldl (joinTurn maxPeers maxTargets) ∅).toList.flatMap Prod.snd

/-- One claim of `due_targets`, unless the attempt ids are exhausted. -/
def claimTarget (key : ResyncTargetKey) : Option (ResyncTarget × ResyncScheduler) := do
  let target ← s.targets[key]?
  if s.nextAttempt + 1 < u64Size then
    some (⟨key, s.nextAttempt, target.requested, target.force⟩,
      { targets := s.targets.insert key { target with active := some s.nextAttempt }
        live := insert (key, s.nextAttempt) s.live
        nextAttempt := s.nextAttempt + 1 })
  else none

/-- What a completion or release does to the entry that the claim's attempt owns, and to no other. -/
def settleClaim (claim : ResyncTarget) (f : ScheduledResync → Option ScheduledResync) : ResyncScheduler :=
  match s.targets[claim.key]? with
  | none => s
  | some target =>
    if target.active ≠ some claim.attempt then s
    else
      match f target with
      | some target => { s with targets := s.targets.insert claim.key target }
      | none => { s with targets := s.targets.erase claim.key }

/-- `complete_clean`. -/
def completeClean (claim : ResyncTarget) (now : ℕ) : ResyncScheduler :=
  s.settleClaim claim fun target =>
    if target.requested ≠ claim.covered ∨ target.force ≠ claim.force then
      some { target with active := none, failures := 0, nextDue := now }
    else none

/-- `complete_dirty`. -/
def completeDirty (claim : ResyncTarget) (after now : ℕ) : ResyncScheduler :=
  s.settleClaim claim fun target => some { target with
    active := none
    failures := 0
    nextDue := if target.requested = claim.covered then now + after else now
    force := if target.force = claim.force then none else target.force }

/-- `complete_failed`. -/
def completeFailed (claim : ResyncTarget) (initialBackoff maxBackoff now : ℕ) : ResyncScheduler :=
  s.settleClaim claim fun target =>
    let failures := min (target.failures + 1) (2 ^ 32 - 1)
    some { target with
      failures := failures
      nextDue := now + min (initialBackoff * 2 ^ min (failures - 1) 20) maxBackoff
      active := none
      force := some target.requested }

/-- `end_attempt`: whether the attempt was live, and the registry without it. -/
def endAttempt (key : ResyncTargetKey) (attempt : ℕ) : Bool × ResyncScheduler :=
  (decide ((key, attempt) ∈ s.live), { s with live := s.live.erase (key, attempt) })

/-- `release_claim`. -/
def releaseClaim (claim : ResyncTarget) (after now : ℕ) : ResyncScheduler :=
  (s.endAttempt claim.key claim.attempt).2.settleClaim claim fun target =>
    some { target with active := none, nextDue := now + after }

/-- `begin_attempts`, under a new attempt id. -/
def beginAttempts (keys : List ResyncTargetKey) : ResyncScheduler :=
  if s.nextAttempt + 1 < u64Size then
    { s with
      live := s.live ∪ (keys.map fun key => (key, s.nextAttempt)).toFinset, nextAttempt := s.nextAttempt + 1 }
  else s

/-- The drop of `LiveAttempts`. -/
def dropAttempts (attempt : ℕ) : ResyncScheduler := { s with live := s.live.filter fun e => e.2 ≠ attempt }

end ResyncScheduler

/-! ## Claims in flight -/

/-- Who holds a claim. -/
inductive Holder
  | caller
  | lease
  | guard
  | completion
deriving DecidableEq

/-- A claim that was not completed or released, and the call of `due_targets` that returned it. -/
structure HeldClaim where
  claim : ResyncTarget
  call : ℕ
  holder : Holder := .caller
deriving DecidableEq

/-- The scheduler and the claims around it, with the attempts that `end_attempt` reported as live. -/
structure Resync where
  scheduler : ResyncScheduler := {}
  held : List HeldClaim := []
  calls : ℕ := 0
  ended : List (ResyncTargetKey × ℕ) := []

/-- A method call of one of the tasks. -/
inductive ResyncEvent
  | scheduleNow (key : ResyncTargetKey) (force : Bool) (now : ℕ)
  | reconsider (key : ResyncTargetKey) (now : ℕ)
  | peerReachable (peer : PeerId) (now : ℕ)
  | dueTargets (maxPeers maxTargets now : ℕ)
  /-- A claim moves from its caller into a lease, from there into a guard, and from there into a completion. -/
  | hand (claim : ResyncTarget) (holder : Holder)
  | completeClean (claim : ResyncTarget) (now : ℕ)
  | completeDirty (claim : ResyncTarget) (after now : ℕ)
  | completeFailed (claim : ResyncTarget) (initialBackoff maxBackoff now : ℕ)
  /-- A lease or guard is dropped with the claim. -/
  | release (claim : ResyncTarget) (after now : ℕ)
  | beginAttempts (keys : List ResyncTargetKey)
  | endAttempt (key : ResyncTargetKey) (attempt : ℕ)
  | dropAttempts (attempt : ℕ)

namespace Resync

variable (w : Resync)

/-- One claim of a call of `due_targets`. -/
def claim (w : Resync) (key : ResyncTargetKey) : Resync :=
  match w.scheduler.claimTarget key with
  | none => w
  | some (claim, scheduler) => { w with scheduler := scheduler, held := w.held ++ [⟨claim, w.calls, .caller⟩] }

/-- The claim is consumed. -/
def consume (claim : ResyncTarget) (scheduler : ResyncScheduler) : Resync :=
  { w with scheduler := scheduler, held := w.held.filter fun h => h.claim ≠ claim }

/-- An attempt that `end_attempt` reports as live is noted. -/
def note (key : ResyncTargetKey) (attempt : ℕ) : List (ResyncTargetKey × ℕ) :=
  if (w.scheduler.endAttempt key attempt).1 then w.ended ++ [(key, attempt)] else w.ended

/-- What a call does to the scheduler and to the claims. -/
def step : ResyncEvent → Resync
  | .scheduleNow key force now => { w with scheduler := w.scheduler.scheduleNow key force now }
  | .reconsider key now => { w with scheduler := w.scheduler.reconsider key now }
  | .peerReachable peer now => { w with scheduler := w.scheduler.peerReachable peer now }
  | .dueTargets maxPeers maxTargets now =>
    (w.scheduler.dueKeys maxPeers maxTargets now).foldl claim { w with calls := w.calls + 1 }
  | .hand c holder =>
    { w with held := w.held.map fun h => if h.claim = c then { h with holder := holder } else h }
  | .completeClean c now => w.consume c (w.scheduler.completeClean c now)
  | .completeDirty c after now => w.consume c (w.scheduler.completeDirty c after now)
  | .completeFailed c initialBackoff maxBackoff now =>
    w.consume c (w.scheduler.completeFailed c initialBackoff maxBackoff now)
  | .release c after now =>
    { w.consume c (w.scheduler.releaseClaim c after now) with ended := w.note c.key c.attempt }
  | .beginAttempts keys => { w with scheduler := w.scheduler.beginAttempts keys }
  | .endAttempt key attempt =>
    { w with scheduler := (w.scheduler.endAttempt key attempt).2, ended := w.note key attempt }
  | .dropAttempts attempt => { w with scheduler := w.scheduler.dropAttempts attempt }

/-- The claim is with the given holder. -/
def holds (c : ResyncTarget) (holder : Holder) : Prop := ∃ h ∈ w.held, h.claim = c ∧ h.holder = holder

/-- The claim's attempt owns the entry. -/
def Owner (c : ResyncTarget) : Prop := ∃ t, w.scheduler.targets[c.key]? = some t ∧ t.active = some c.attempt

/-- What the tasks may do: a claim moves along its holders, a completion consumes one that was handed to it,
and a drop one of a lease or guard. A claim whose attempt owns nothing may come back at any time. No counter
is at its end. -/
def Allowed : ResyncEvent → Prop
  | .scheduleNow key _ _ => ∀ target, w.scheduler.targets[key]? = some target → target.requested < u64Size - 1
  | .hand c .lease => w.holds c .caller
  | .hand c .guard => w.holds c .lease
  | .hand c .completion => w.holds c .guard
  | .hand _ .caller => False
  | .completeClean c _ => w.holds c .completion ∨ ¬ w.Owner c
  | .completeDirty c _ _ => w.holds c .completion ∨ ¬ w.Owner c
  | .completeFailed c _ _ _ => w.holds c .completion ∨ ¬ w.Owner c
  | .release c _ _ => w.holds c .lease ∨ w.holds c .guard ∨ ¬ w.Owner c
  | _ => True

/-- A run of calls. -/
def run (w : Resync) (events : List ResyncEvent) : Resync := events.foldl step w

/-- Every call of the run was allowed when it was made. -/
def Valid : Resync → List ResyncEvent → Prop
  | _, [] => True
  | w, e :: events => w.Allowed e ∧ Valid (w.step e) events

end Resync

end Irokle
