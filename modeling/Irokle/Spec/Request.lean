import Irokle.Spec.Clock
import Irokle.Spec.Types

/-!
# Requests for a page

What a request names of the actors its sender is behind on (`src/sync/request.rs`), how it is built from
the negotiation with one peer (`src/sync/mod.rs`), and the checks on its size that a responder makes: on
its input first, then on the workspace of a slice, and last on the plan it keeps for the next request.

Subtractions and indexing of the source that would end in a panic are `none` here, so a request that is
`some` was built without one. What a negotiation reads from its snapshot is a `RequestRead` with any
answers.
-/

namespace Irokle

open Std

/-- `MAX_ACTOR_RANGE_HINT_SPAN`. -/
def maxRangeSpan : ℕ := 65536

/-- `MAX_REQUEST_ITEMS`. -/
def maxRequestItems : ℕ := 65536

/-- `MAX_ACTOR_FILTER_BYTES`. -/
def maxFilterBytes : ℕ := 1024 * 1024

/-- `MAX_PAGE_OPS`. -/
def maxPageOps : ℕ := 4096

/-- `MAX_PAGE_MISSING`. -/
def maxPageMissing : ℕ := 256

/-- A subtraction of unsigned integers that does not underflow. -/
def checkedSub (a b : ℕ) : Option ℕ := if b ≤ a then some (a - b) else none

/-! ## Filters and windows -/

/-- `ActorFilter`: the bits of a Bloom filter over actors. -/
structure ActorFilter where
  bits : List UInt8
deriving DecidableEq

namespace ActorFilter

/-- `PROBES`. -/
def probeCount : ℕ := 7

/-- `ActorFilter::probes`. -/
def probes (bits : ℕ) (actor : ActorId) : List ℕ :=
  (List.range probeCount).map fun probe =>
    (actor.byte (probe * 4) + 2 ^ 8 * actor.byte (probe * 4 + 1) + 2 ^ 16 * actor.byte (probe * 4 + 2) +
      2 ^ 24 * actor.byte (probe * 4 + 3)) % bits

/-- `bits[bit / 8] |= 1 << (bit % 8)`. -/
def setBit (bits : List UInt8) (bit : ℕ) : List UInt8 :=
  bits.modify (bit / 8) fun byte => byte ||| (1 <<< UInt8.ofNat (bit % 8))

/-- `ActorFilter::sized`. -/
def sized (actors : List ActorId) (bytes : ℕ) : ActorFilter :=
  let bytes := max bytes 1
  ⟨actors.foldl (fun bits actor => (probes (bytes * 8) actor).foldl setBit bits) (List.replicate bytes 0)⟩

theorem length_setBits (bits : List UInt8) (positions : List ℕ) :
    (positions.foldl setBit bits).length = bits.length := by
  induction positions generalizing bits with
  | nil => rfl
  | cons bit positions ih => rw [List.foldl_cons, ih, setBit, List.length_modify]

theorem length_sized (actors : List ActorId) (bytes : ℕ) : (sized actors bytes).bits.length = max bytes 1 := by
  have hfold : ∀ (actors : List ActorId) (bits : List UInt8) (n : ℕ),
      (actors.foldl (fun bits actor => (probes n actor).foldl setBit bits) bits).length = bits.length := by
    intro actors bits n
    induction actors generalizing bits with
    | nil => rfl
    | cons actor actors ih => rw [List.foldl_cons, ih, length_setBits]
  rw [sized, hfold, List.length_replicate]

/-- `ActorFilter::new`. -/
def new (actors : List ActorId) (maxBytes : ℕ) : Option ActorFilter :=
  -- `checked_mul`
  if u64Size ≤ actors.length * 10 then none
  else
    let bytes := max ((actors.length * 10 + 7) / 8) 1
    if maxBytes < bytes then none else some (sized actors bytes)

/-- `ActorFilter::contains`. -/
def contains (filter : ActorFilter) (actor : ActorId) : Bool :=
  !filter.bits.isEmpty && (probes (filter.bits.length * 8) actor).all fun bit =>
    filter.bits.getD (bit / 8) 0 &&& (1 <<< UInt8.ofNat (bit % 8)) != 0

end ActorFilter

/-- `ActorRangeHint`: the positions of an actor that are asked for. -/
structure ActorRangeHint where
  actorId : ActorId
  fromExclusive : ℕ
  toInclusive : ℕ
deriving DecidableEq

/-- `ActorWindow`: the actors a request covers, and those it is behind on. -/
structure ActorWindow where
  after : Option ActorId := none
  through : Option ActorId := none
  behind : Option ActorFilter := none
deriving DecidableEq

namespace ActorWindow

/-- `ActorWindow::contains`. -/
def contains (window : ActorWindow) (actor : ActorId) : Bool :=
  window.after.all (· < actor) && window.through.all (actor ≤ ·)

/-- `ActorWindow::holds`. -/
def holds (window : ActorWindow) (actor : ActorId) : Bool :=
  window.contains actor || window.behind.any fun behind => !behind.contains actor

end ActorWindow

/-! ## What a requester carries over -/

/-- `RequestKnowledge`: where the last request of a topic ended. -/
structure RequestKnowledge where
  after : Option ActorId := none
  positions : List ActorId := []
  capacity : ℕ := maxPageMissing
  revision : ℕ := 0
  quiet : ℕ := 0

namespace RequestKnowledge

/-- `RequestKnowledge::settle`. -/
def settle (k : RequestKnowledge) (window : ActorWindow) (positions : BTreeSet ActorId)
    (continued received : Bool) (actors : ℕ) :
    RequestKnowledge :=
  let quiet := if received then 0 else k.quiet + 1
  let advancing : Bool := quiet ≤ min (min (actors * 4) (u64Size - 1) + 64) (u64Size - 1)
  let grown (advanced : Bool) := k.revision + advanced.toNat
  if continued then { k with quiet, revision := grown advancing }
  else if positions.isEmpty = false then
    { k with
      quiet
      positions := (positions.toList ++ k.positions.filter fun actor => !positions.contains actor).take k.capacity
      after := window.through
      revision := grown advancing }
  else
    -- only a partial window moves on to actors the last request left out
    let isPartial := window.after.isSome || window.through.isSome
    { k with
      quiet, after := window.through, positions := [], revision := grown (advancing && !received && isPartial) }

end RequestKnowledge

/-! ## Ranges -/

section Ranges

variable (own remote : ActorClock)

/-- `hint`, and what is left of the span. -/
def hint (span : ℕ) (actor : ActorId) : Option (ActorRangeHint × ℕ) := do
  let lower := own.get actor
  let upper := saturatingAdd (min (remote.get actor - lower) span) lower
  let used ← checkedSub upper lower
  let span ← checkedSub span used
  return (⟨actor, lower, upper⟩, span)

/-- `prefix_hint`. -/
def prefixHint (span : ℕ) (actor : ActorId) : Option (ActorRangeHint × ℕ) := do
  let (hint, span) ← hint own remote span actor
  let next := min hint.toInclusive (saturatingAdd hint.fromExclusive 1)
  let unused ← checkedSub hint.toInclusive next
  return ({ hint with toInclusive := next }, span + unused)

/-- One hint for each actor from a shared span. -/
def hintsOf (make : ℕ → ActorId → Option (ActorRangeHint × ℕ)) : ℕ → List ActorId →
    Option (List ActorRangeHint × ℕ)
  | span, [] => some ([], span)
  | span, actor :: actors => do
    let (hint, span) ← make span actor
    let (hints, span) ← hintsOf make span actors
    return (hint :: hints, span)

/-- The loop of `window_ranges` over the actors behind from its start: the hints, the last actor of
the run and its end. -/
def extendRun (items : ℕ) (named : BTreeSet ActorId) :
    List ActorId → List ActorRangeHint → ℕ → Option ActorId → ℕ →
      Option (List ActorRangeHint × Option ActorId × ℕ)
  | [], hints, _, through, stop => some (hints, through, stop)
  | actor :: rest, hints, span, through, stop =>
    if actor ∈ named then extendRun items named rest hints span (some actor) (stop + 1)
    else if hints.length = items then some (hints, through, stop)
    else do
      let (hint, span) ← prefixHint own remote span actor
      extendRun items named rest (hints ++ [hint]) span (some actor) (stop + 1)

/-- The loop of `exact_filter`. -/
def growFilter (collides : ActorFilter → Bool) (omitted : List ActorId) (filter : ActorFilter) : ActorFilter :=
  let bytes := filter.bits.length * 2
  if collides filter = false ∨ maxFilterBytes < bytes then filter else growFilter collides omitted
    (ActorFilter.sized omitted bytes)
termination_by maxFilterBytes + 1 - filter.bits.length
decreasing_by
  rw [ActorFilter.length_sized]
  omega

/-- `exact_filter`. -/
def exactFilter (window : ActorWindow) (omitted : List ActorId) : Option ActorFilter :=
  (ActorFilter.new omitted maxFilterBytes).map fun filter =>
    growFilter (fun filter => remote.toList.any fun (actor, seq) =>
      decide (seq ≤ own.get actor) && !window.contains actor && filter.contains actor) omitted filter

/-- `window_ranges`. -/
def windowRanges (items : ℕ) (behind : List ActorId) (after : Option ActorId) (named : List ActorId) :
    Option (List ActorRangeHint × ActorWindow) := do
  let named : BTreeSet ActorId := ExtTreeSet.ofList named compare
  let (hints, span) ← hintsOf (prefixHint own remote) maxRangeSpan named.toList
  -- `partition_point`
  let start := (behind.takeWhile fun actor => after.any (actor ≤ ·)).length
  let (after, start) := if start = behind.length then (none, 0) else (after, start)
  let (hints, through, stop) ← extendRun own remote items named (behind.drop start) hints span after start
  -- a run that reached the last actor behind holds everything after it too
  let through := if stop = behind.length then none else through
  let window : ActorWindow := { after, through }
  let omitted := behind.filter fun actor => !named.contains actor && !window.contains actor
  return (hints, { window with behind := exactFilter own remote window omitted })

/-- The actors that `remote` has more of. -/
def actorsBehind : List ActorId :=
  (remote.toList.filter fun (actor, seq) => decide (own.get actor < seq)).map Prod.fst

/-- `request_ranges`. -/
def requestRanges (items : ℕ) (knowledge : RequestKnowledge) : Option (List ActorRangeHint × ActorWindow) := do
  let behind := actorsBehind own remote
  if behind.length ≤ items then
    let (hints, _) ← hintsOf (hint own remote) maxRangeSpan behind
    return (hints, {})
  if items = 0 then
    -- a window from an actor to itself holds nothing
    let empty ← behind.head?
    return ([], { after := some empty, through := some empty, behind := ActorFilter.new behind maxFilterBytes })
  let (ahead, held) := knowledge.positions.partition fun actor => own.get actor < remote.get actor
  let room ← checkedSub items 1
  let named := ahead.take room
  let ranges ← windowRanges own remote items behind knowledge.after named
  -- a held actor is named only where the filter would take it as behind
  let unheld := held.filter fun actor => !ranges.2.holds actor
  if unheld.isEmpty || named.length = room then return ranges
  let rest ← checkedSub room named.length
  windowRanges own remote items behind knowledge.after (named ++ unheld.take rest)

end Ranges

/-! ## Space -/

/-- `tree_bytes`, by the sizes of a key and a value and their alignment. -/
def treeBytes (key value alignment entries : ℕ) : ℕ :=
  let nodes := (entries - 1) / 5 + 1
  let leaf := 11 * (key + value) + 48 + 2 * alignment
  nodes * leaf + (nodes + 3) / 6 * (12 * 8)

/-- `vector_bytes`, by the size of an element and its alignment. -/
def vectorBytes (size alignment capacity : ℕ) : ℕ :=
  if capacity = 0 then 0
  else capacity * size + ((if 64 * 1024 ≤ capacity * size then 64 * 1024 else 32) + 2 * alignment)

/-- `MAX_CONTINUATION_BYTES`. -/
def maxContinuationBytes : ℕ := 4 * 1024 * 1024

/-- `MAX_WORKSPACE_BYTES`. -/
def Slice.maxWorkspaceBytes : ℕ := 8 * 1024 * 1024

/-- `MAX_PAGE_BYTES`. -/
def maxPageBytes : ℕ := 32 * 1024 * 1024

/-- `SyncCredit`: how much a page may hold. -/
structure SyncCredit where
  ops : ℕ := maxPageOps
  bytes : ℕ := maxPageBytes

/-- `SyncRequest`. -/
structure SyncRequest where
  topicId : TopicId
  known : BTreeSet OpId
  wants : BTreeSet OpId
  actorRangeHints : List ActorRangeHint
  genesis : Option OpId
  credit : SyncCredit
  window : ActorWindow

/-- The limits of a `SyncEngine` that requests depend on. Tests scale the items of a request down. -/
structure SyncLimits where
  requestItems : ℕ := maxRequestItems
  scaledDown : requestItems ≤ maxRequestItems

/-- The parts of `TopicView` that a request reads. -/
structure TopicView where
  genesis : OpId
  eventTypeId : String
  heads : BTreeSet OpId
  members : BTreeSet PeerId
  clock : ActorClock
  fingerprint : Digest
  pendingMissing : BTreeSet OpId

/-- `Integrity`: whether the scan is whole, and the holes it found with the generation of each. -/
structure Integrity where
  isWhole : Bool
  holes : BTreeMap OpId (Option ℕ)

/-- `Integrity::unresolved`. -/
def Integrity.unresolved (integrity : Integrity) (view : TopicView) : BTreeMap OpId (Option ℕ) :=
  integrity.holes.toList.foldl (fun m e => m.insert e.1 e.2)
    (view.pendingMissing.toList.foldl (fun m id => m.insert id none) ∅)

/-- `SNAPSHOT_OPEN_BYTES`. -/
def snapshotOpenBytes : ℕ := 512

/-- The checks of `response_known` on the size of a request, with those of `Slice::charge_input`. -/
def checkRequest (L : SyncLimits) (request : SyncRequest) : Result Unit := do
  let hints := request.actorRangeHints.length
  let wanted := request.wants.size
  if L.requestItems < hints + wanted ∨ request.window.behind.any (maxFilterBytes < ·.bits.length) then
    throw (.syncCapacity "reduce the request's wants, actor hints or filter")
  let inputWork := hints * 16 + wanted * 8 + 8 * (maxPageOps + maxPageMissing)
  let inputBytes := treeBytes 32 8 8 hints * 5 + treeBytes 32 0 1 hints + treeBytes 32 16 8 maxPageOps +
    (request.window.behind.map (2 * ·.bits.length)).getD 0
  if 16 * maxRequestItems + 8 * (maxPageOps + maxPageMissing) < inputWork ∨
      128 * 1024 * 1024 < snapshotOpenBytes + inputBytes then
    throw (.syncCapacity "request input exceeds its work or memory limit; reduce wants, hints or filter bytes")

/-- What `Frontier::bytes` counts: the ops of the offered page, the heads the active heap has room for, the
states of the actors, and the bytes of its repair and its other collections. -/
structure FrontierSizes where
  offered : ℕ := 0
  active : ℕ := 0
  states : ℕ := 0
  others : ℕ := 0

/-- `Frontier::bytes`. -/
def FrontierSizes.bytes (f : FrontierSizes) : ℕ :=
  vectorBytes 80 8 f.offered + vectorBytes 88 8 f.active + treeBytes 32 16 8 f.states + f.others + 4096

/-- `Slice::reserve`. -/
def Slice.reserve (workspace bytes : ℕ) : Result ℕ :=
  let required := workspace + bytes
  if Slice.maxWorkspaceBytes < required then
    .error (.syncCapacity
      s!"planner workspace needs {required} bytes; reduce the request's wants or actor window")
  else .ok required

/-- What `response_known` reserves before its traversal: the frontier it starts from and, with `Repair::new`,
the wants. -/
def reserveWants (f : FrontierSizes) (request : SyncRequest) : Result ℕ := do
  let workspace ← Slice.reserve 0 f.bytes
  if request.wants.isEmpty then return workspace
  Slice.reserve workspace (2 * treeBytes 32 0 1 request.wants.size + 2 * treeBytes 32 0 1 0 + treeBytes 40 0 8 0 +
    treeBytes 32 96 8 0)

/-- `Continuation::bytes`: a plan for a request that came without a summary holds the actors and the window of
that request. -/
def planBytes (informed : Bool) (f : FrontierSizes) (request : SyncRequest) : ℕ :=
  if informed then f.bytes
  else
    let named : BTreeMap ActorId ℕ :=
      ExtTreeMap.ofList (request.actorRangeHints.map fun h => (h.actorId, h.fromExclusive)) compare
    -- the smallest capacity of a vector is four
    vectorBytes 40 8 (if named.isEmpty then 0 else max 4 named.size) +
      (request.window.behind.map fun behind => vectorBytes 1 1 behind.bits.length).getD 0 + f.bytes

/-- The check of `Continuations::keep` on the size of a plan. -/
def keepPlan (informed : Bool) (f : FrontierSizes) (request : SyncRequest) : Result Unit :=
  let bytes := planBytes informed f request
  if maxContinuationBytes < bytes then
    .error (.syncCapacity s!"retained plan needs {bytes} bytes, limit {maxContinuationBytes}")
  else .ok ()

end Irokle
