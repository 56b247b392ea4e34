import Mathlib.Data.Finset.Insert

/-!
# History traversal

The generic walk over predecessor links (`src/history.rs`): an explicit-stack depth-first search
that lists a record after all of its predecessors, read backwards for the newest-first order. The
ids are any type with decidable equality, the predecessor links any function.
-/

namespace Irokle

/-- `HistoryOrder`. -/
inductive HistoryOrder where
  | oldestFirst
  | newestFirst
  deriving DecidableEq, Repr

/-- `DagQuery`. -/
structure DagQuery (I : Type) where
  heads : List I := []
  order : HistoryOrder := .oldestFirst
  limit : Option ℕ := none
  includeHeads : Bool := true

variable {I T : Type} [DecidableEq I]

/-- `ordered`. -/
def ordered (records : List T) (order : HistoryOrder) : List T :=
  if order = .newestFirst then records.reverse else records

/-- `limited`. -/
def limited (records : List T) : Option ℕ → List T
  | some limit => records.take limit
  | none => records

/-- The entries pushed for some ids, top of the stack first. The source pushes at the end of a
vector, after reversing the ids for the oldest-first order. -/
def DagQuery.pushed (query : DagQuery I) (ids : List I) : List (I × Bool) :=
  ((if query.order = .oldestFirst then ids.reverse else ids).map (·, false)).reverse

/-- Whether a finished id is listed: not a head of a query that leaves them out. -/
def DagQuery.lists (query : DagQuery I) (id : I) : Bool :=
  query.includeHeads || decide (id ∉ query.heads)

/-- Whether the oldest-first walk has listed enough. -/
def DagQuery.full (query : DagQuery I) (out : List I) : Bool :=
  decide (query.order = .oldestFirst) && query.limit.any (· ≤ out.length)

/-- The loop of `traverse_dag`, in at most `fuel` rounds; `.error` is its early return. -/
def traverseLoop (query : DagQuery I) (parents : I → List I) :
    ℕ → List (I × Bool) → Finset I → List I → Option (Except (List I) (List I))
  | 0, _, _, _ => none
  | _ + 1, [], _, out => some (.ok out)
  | fuel + 1, (id, true) :: stack, seen, out =>
    if query.lists id then
      if query.full (out ++ [id]) then some (.error (out ++ [id]))
      else traverseLoop query parents fuel stack seen (out ++ [id])
    else traverseLoop query parents fuel stack seen out
  | fuel + 1, (id, false) :: stack, seen, out =>
    if id ∈ seen then traverseLoop query parents fuel stack seen out
    else traverseLoop query parents fuel (query.pushed (parents id) ++ (id, true) :: stack) (insert id seen) out

/-- `traverse_dag`: nothing when the rounds do not suffice. -/
def traverseDag (fuel : ℕ) (query : DagQuery I) (parents : I → List I) : Option (List I) :=
  if query.limit = some 0 then some []
  else (traverseLoop query parents fuel (query.pushed query.heads) ∅ []).map fun
    | .error out => out
    | .ok out => limited (ordered out query.order) query.limit

end Irokle
