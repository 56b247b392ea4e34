import Irokle.Spec.Goal
import Irokle.Spec.Session

/-!
# Exchanges of one topic

What a requester learns from the page results of one peer and topic (`RequestLog` in `src/iroh/mod.rs`), and how
`run_batch_exchange` judges an exchange by it. Entries of other keys matter only when they push this one out, so
the entry stands alone here and is never evicted. What the exchanges read besides it does not change: the view,
the staged and the receipted positions.
-/

namespace Irokle

open Std

/-- `RequestEntry`. -/
structure RequestEntry where
  genesis : OpId
  session : Option ℕ
  knowledge : RequestKnowledge
  window : ActorWindow
  actors : ℕ

namespace RequestEntry

/-- `RequestLog::settle`. -/
def settle (entry : Option RequestEntry) (genesis : Option OpId) (page : SyncPage)
    (received : Bool) : Option RequestEntry :=
  entry.map fun e =>
    if some e.genesis = genesis then
      { e with knowledge := e.knowledge.settle e.window page.positions page.continued received e.actors }
    else e

/-- `RequestLog::revision`. -/
def revision (entry : Option RequestEntry) (genesis : Option OpId) : ℕ :=
  ((entry.filter fun e => decide (some e.genesis = genesis)).map (·.knowledge.revision)).getD 0

end RequestEntry

/-- A response that `batch_replies` folds into the request log. -/
inductive TopicResponse
  | data (ops : List Op)
  | page (page : SyncPage)

/-- What the fold of the responses knows: the entry, whether data came, and whether the goal holds more. -/
structure Folded where
  entry : Option RequestEntry
  received : Bool := false
  more : Bool := false

/-- One response of `batch_replies`. -/
def Folded.step (genesis : Option OpId) (s : Folded) : TopicResponse → Folded
  | .data ops => { s with received := s.received || !ops.isEmpty }
  | .page page =>
    { s with entry := RequestEntry.settle s.entry genesis page s.received, more := s.more || page.more }

end Irokle
