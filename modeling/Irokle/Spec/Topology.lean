import Irokle.Lib.Kahn
import Irokle.Spec.Membership

/-!
# Order of an input batch

`topological_ops` (`src/oplog/topology.rs`) lists the ops of a batch so that each follows its
dependencies inside the batch, oldest generation first.
-/

namespace Irokle

open Std

/-- The ops by id; of two ops with one id the later one stays. -/
def byId (ops : List Op) : BTreeMap OpId Op := ops.foldl (fun m op => m.insert op.id op) ∅

/-- The generation of an input op. -/
def inputGeneration (m : BTreeMap OpId Op) (id : OpId) : ℕ := (m[id]?.map (·.body.generation)).getD 0

/-- `topological_ops`. -/
def topologicalOps (ops : List Op) : Result (List Op) := do
  let m := byId ops
  let ids := Kahn.order (inputGeneration m) (m.map fun _ op => op.body.deps)
  let out ← ids.mapM fun id => match m[id]? with
    | some op => .ok op
    | none => .error (.storage ("missing input op " ++ id.display))
  refuseIf (out.length ≠ m.size) (.storage "cycle in input op batch")
  return out

end Irokle
