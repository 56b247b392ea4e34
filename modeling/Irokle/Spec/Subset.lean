import Irokle.Lib.KahnQueue
import Irokle.Lib.Reach
import Irokle.Spec.Inner

/-!
# Ordering stored ops

`topological_meta` (`src/oplog/topology.rs`) orders the ops a set of ids names, oldest first, over
one read snapshot of a store. An op without both of its records, or with a dependency outside the
set without both of its own, is a hole: it and what depends on it are left out.
-/

namespace Irokle

open Std

/-- The reads of a snapshot that ordering uses (`SnapshotRead`). A read of a damaged store fails. -/
structure SnapshotRead where
  getOp : OpId → Result (Option Op)
  getMeta : OpId → Result (Option OpMeta)
  depResolvable : OpId → Result Bool

/-- What the scan over the ids collects. -/
structure SubsetScan where
  present : BTreeMap OpId (OpMeta × ℕ) := ∅
  children : BTreeMap OpId (BTreeSet OpId) := ∅
  blocked : BTreeSet OpId := ∅

/-- What the loop over the dependencies of one id knows: how many are in the set, whether one outside it is a
hole, and the children. -/
structure DepScan where
  depsInSet : ℕ := 0
  dangling : Bool := false
  children : BTreeMap OpId (BTreeSet OpId)

/-- One dependency of `id`. -/
def DepScan.step (read : SnapshotRead) (ids : BTreeSet OpId) (id : OpId) (s : DepScan)
    (dep : OpId) : Result DepScan :=
  if dep ∈ ids then .ok { s with depsInSet := s.depsInSet + 1, children := SetMap.insert s.children dep id }
  else do
    let held ← read.depResolvable dep
    return { s with dangling := s.dangling || !held }

/-- One id of the scan: a hole is blocked, another id is present with the number of its dependencies
inside the set. -/
def SubsetScan.step (read : SnapshotRead) (ids : BTreeSet OpId) (s : SubsetScan)
    (id : OpId) : Result SubsetScan := do
  match ← read.getMeta id with
  | none => return { s with blocked := s.blocked.insert id }
  | some m =>
    let held ← read.depResolvable id
    if held = false then return { s with blocked := s.blocked.insert id }
    else
      let d ← m.deps.toList.foldlM (DepScan.step read ids id) { children := s.children }
      if d.dangling then return { s with children := d.children, blocked := s.blocked.insert id }
      else return { s with children := d.children, present := s.present.insert id (m, d.depsInSet) }

/-- The scan over the ids. -/
def subsetScan (read : SnapshotRead) (ids : BTreeSet OpId) : Result SubsetScan :=
  ids.toList.foldlM (SubsetScan.step read ids) {}

/-- What is blocked once blocking has spread along the children. -/
def SubsetScan.spread (ids : BTreeSet OpId) (s : SubsetScan) : BTreeSet OpId :=
  Reach.walk (fun id => (SetMap.get s.children id).toList.filter fun child => ids.contains child)
    (s.blocked.size + ids.size + 1) s.blocked.toList.reverse s.blocked

/-- `topological_meta`. -/
def topologicalMeta (read : SnapshotRead) (ids : BTreeSet OpId) : Result (List OpMeta) := do
  let s ← subsetScan read ids
  let blocked := s.spread ids
  let present := s.present.filter fun id _ => !blocked.contains id
  let ready := (present.toList.filter fun e => e.2.2 = 0).map (·.1)
  let out := KahnQueue.drain s.children (present.size + 1) ready present
  if out.length ≠ present.size then throw (.storage "cycle in op graph")
  return out.map (·.2)

/-- `subset_entries_in`. -/
def subsetEntriesIn (read : SnapshotRead) (ids : BTreeSet OpId) : Result (List (Op × OpMeta)) := do
  (← topologicalMeta read ids).mapM fun m => do
    match ← read.getOp m.id with
    | some op => return (op, m)
    | none => throw (.storage ("missing op " ++ m.id.display))

end Irokle
