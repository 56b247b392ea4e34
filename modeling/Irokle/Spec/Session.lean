import Irokle.Spec.Request
import Irokle.Spec.Sync
import Irokle.Spec.Wire

/-!
# The replies of a served stream

The limits of a stream (`src/iroh/exchange.rs`), and how a session answers the requests it read
(`src/iroh/session.rs`) in one or more slices of work (`handle_stream` in `src/iroh/mod.rs`).

Subtractions, additions and divisions of the source that would end in a panic are errors here. The planner
behind a page and the storage behind an acknowledgement may answer anything; the planner is asked by the
number of the call, so that it may change its answers between calls.
-/

namespace Irokle

open Std Postcard

/-! ## Stream limits -/

/-- `StreamLimits`, apart from the sizes of the byte pools. -/
structure StreamLimits where
  bytes : ℕ
  messages : ℕ
  batchMessages : ℕ
deriving DecidableEq

/-- `SyncReadLimits`: what a stream has taken of its limits. -/
structure SyncReadLimits where
  limits : StreamLimits
  messages : ℕ := 0
  bytes : ℕ := 0

/-- `SyncReadLimits::observe_frame`. -/
def SyncReadLimits.observeFrame (s : SyncReadLimits) (frameLen : ℕ) : Except String SyncReadLimits :=
  if frameLen > maxFrameLen then .error "sync frame exceeds maximum length"
  else if s.messages ≥ s.limits.messages then .error "sync stream has too many messages"
  else if s.bytes + (frameLen + 4) ≥ usizeSize then .error "sync stream byte count overflow"
  else if s.bytes + (frameLen + 4) > s.limits.bytes then .error "sync stream exceeds maximum byte length"
  else .ok { s with bytes := s.bytes + (frameLen + 4), messages := s.messages + 1 }

/-- The operations a message carries. -/
def SyncMessage.opCount : SyncMessage → ℕ
  | .data d => d.ops.length
  | .other _ _ => 0

/-- `SyncReadLimits::observe_message`. -/
def SyncReadLimits.observeMessage (codec : WireCodec) (s : SyncReadLimits)
    (message : SyncMessage) : Except String SyncReadLimits :=
  if message.opCount > maxSyncDataOpsPerMessage then .error "sync data exceeds maximum operation count"
  else s.observeFrame (codec.serializedSize message)

/-- `stream_fits`. -/
def streamFits (codec : WireCodec) (messages : List SyncMessage) (limits : StreamLimits) : Except String Unit :=
  do
  let _ ← messages.foldlM (SyncReadLimits.observeMessage codec) { limits := limits }
  return ()

/-! ## Replies -/

/-- `SyncPage`: how a served page ended. -/
structure SyncPage where
  topicId : TopicId
  more : Bool
  missing : BTreeSet OpId
  positions : BTreeSet ActorId
  continued : Bool

/-- `SyncFailureCode`: the message that failed. -/
inductive SyncFailureCode
  | «open»
  | fingerprint
  | summary
  | request
  | data
  | ack
deriving DecidableEq

/-- `SyncFailure`. -/
structure SyncFailure where
  topicId : TopicId
  code : SyncFailureCode

/-- Write a flag. -/
def putBool (b : Bool) : Bytes := putU8 b.toNat

/-- Write a set of ids. -/
def putIds {k : IdKind} (ids : BTreeSet (IdType k)) : Bytes :=
  putU64 ids.size ++ putMany (ids.toList.map IdType.bytes)

/-- The encoding of a page result. -/
def SyncPage.encode (page : SyncPage) : Bytes :=
  putArray page.topicId.bytes ++ putBool page.more ++ putIds page.missing ++ putIds page.positions ++
    putBool page.continued

/-- The variant index of a code. -/
def SyncFailureCode.tag : SyncFailureCode → ℕ
  | .open => 0
  | .fingerprint => 1
  | .summary => 2
  | .request => 3
  | .data => 4
  | .ack => 5

/-- The encoding of a failure. -/
def SyncFailure.encode (failure : SyncFailure) : Bytes :=
  putArray failure.topicId.bytes ++ putU32 failure.code.tag

/-- A message of a reply: one kept while the stream was read, or what `finish_slice` adds. -/
inductive Reply
  | control (message : SyncMessage)
  | data (message : SyncMessage)
  | failure (failure : SyncFailure)
  | page (page : SyncPage)

/-- The message that is sent. -/
def Reply.message : Reply → SyncMessage
  | .control m => m
  | .data m => m
  | .failure f => .other 6 f.encode
  | .page p => .other 7 p.encode

/-! ## Sessions -/

/-- `PageBudget`. -/
structure PageBudget where
  ops : ℕ
  bytes : ℕ

/-- `PageBudget::from_credit`. -/
def PageBudget.fromCredit (credit : SyncCredit) : PageBudget :=
  ⟨min credit.ops maxPageOps, min credit.bytes maxPageBytes⟩

/-- `PlannedPage`. A page names the missing records of what it replays and of what it repairs, and at most so many
positions. -/
structure PlannedPage where
  ops : List Op
  more : Bool
  missing : BTreeSet OpId
  positions : BTreeSet ActorId
  continued : Bool
  missing_le : missing.size ≤ 2 * maxPageMissing
  positions_le : positions.size ≤ maxPageMissing

/-- What a served stream depends on. -/
structure Server where
  codec : WireCodec
  /-- `size_of::<Op>()`. -/
  opSize : ℕ
  /-- `apply_sync_acks`: whether each acknowledgement was applied. -/
  applySyncAcks : List SyncAck → List Bool
  /-- `response_with` or `response_page`, at the given call. -/
  plan : ℕ → TopicId → SyncRequest → PageBudget → Result PlannedPage

/-- `SyncSession`. Nothing but an open message is handled before the peer is known. -/
structure SyncSession where
  remotePeerId : Option PeerId
  acks : List SyncAck
  controls : List SyncMessage
  /-- The encoded acknowledgements. -/
  replies : BTreeMap TopicId SyncMessage
  /-- The encoded receipts. -/
  receipts : BTreeMap TopicId SyncMessage
  requests : BTreeMap TopicId SyncRequest
  opened : remotePeerId = none → acks = [] ∧ requests = ∅

/-- `usize` subtraction. -/
def usizeSub (a b : ℕ) : Except String ℕ :=
  if b ≤ a then .ok (a - b) else .error "attempt to subtract with overflow"

/-- `usize` addition. -/
def usizeAdd (a b : ℕ) : Except String ℕ :=
  if a + b < usizeSize then .ok (a + b) else .error "attempt to add with overflow"

/-- `usize` multiplication. -/
def usizeMul (a b : ℕ) : Except String ℕ :=
  if a * b < usizeSize then .ok (a * b) else .error "attempt to multiply with overflow"

/-- `usize` division. -/
def usizeDiv (a b : ℕ) : Except String ℕ := if b = 0 then .error "attempt to divide by zero" else .ok (a / b)

/-- `usize::saturating_mul`. -/
def satMul (a b : ℕ) : ℕ := min (a * b) (usizeSize - 1)

/-- `ByteBudget::page_bound`. -/
def pageBound (opSize bytes ops : ℕ) : ℕ := WireCodec.satAdd (satMul 3 bytes) (satMul ops opSize)

/-- The acknowledgements that storage refused. -/
def refusedAcks (acks : List SyncAck) (applied : List Bool) : List SyncAck :=
  ((acks.zip applied).filter fun e => !e.2).map Prod.fst

/-- `apply_acks`. -/
def Server.applyAcks (server : Server) (session : SyncSession) : Except String (List Reply) :=
  if session.acks = [] then .ok []
  else
    match session.remotePeerId with
    | none => .error "sync ack requires a preceding SyncOpen with peer_id"
    | some peerId =>
      let bound := session.acks.filter fun ack => ack.peerId = peerId
      let failed := session.acks.filter fun ack => ack.peerId ≠ peerId
      .ok ((failed ++ refusedAcks bound (server.applySyncAcks bound)).map fun ack => .failure ⟨ack.topicId, .ack⟩)

/-- Every message kept while the stream was read, with what its acknowledgements left. -/
def Server.controlReplies (server : Server) (session : SyncSession) : Except String (List Reply) := do
  let acks ← server.applyAcks session
  return session.controls.map .control ++ acks ++ session.replies.values.map .control ++
    session.receipts.values.map .control

/-- A page result that names nothing. -/
def emptyPage (t : TopicId) : SyncPage := ⟨t, false, ∅, ∅, false⟩

/-- A session that has nothing to answer. -/
def SyncSession.taken : SyncSession := ⟨none, [], [], ∅, ∅, ∅, fun _ => ⟨rfl, rfl⟩⟩

/-- A request with its topic. -/
abbrev TopicRequest := TopicId × SyncRequest

/-- A session that has only these requests to answer. -/
def SyncSession.waiting (peerId : PeerId) (requests : List TopicRequest) : SyncSession :=
  ⟨some peerId, [], [], ∅, ∅, ExtTreeMap.ofList requests compare, by simp⟩

/-- The variables of `finish_slice`. -/
structure Serving where
  bytes : ℕ
  messages : ℕ
  left : ℕ
  calls : ℕ
  held : ℕ := 0
  responses : List Reply
  deferred : List TopicRequest := []

namespace Server

variable (server : Server)

/-- The budget of one page: its credit, its share of the stream and what is left of the grant. -/
def pageBudget (request : SyncRequest) (shareBytes shareMessages grantLeft : ℕ) : PageBudget :=
  let budget := PageBudget.fromCredit request.credit
  let ops := min (min budget.ops (satMul shareMessages maxSyncDataOpsPerMessage))
    (grantLeft / (2 * server.opSize))
  ⟨ops, min (min budget.bytes shareBytes) ((grantLeft - pageBound server.opSize 0 ops) / 3)⟩

/-- A request that cannot be planned is answered with a failure. -/
def failRequest (s : Serving) (t : TopicId) : Except String Serving := do
  let failure : Reply := .failure ⟨t, .request⟩
  let size ← server.codec.framedMessageLen failure.message
  return { s with
    held := WireCodec.satAdd s.held (pageBound server.opSize size 0)
    responses := s.responses ++ [failure] }

/-- Fill a page with the operations that fit its share, or set the request aside. -/
def fillPage (pass : Bool) (s : Serving) (e : TopicRequest) (ops : List Op) (result : SyncPage)
    (extra shareBytes shareMessages : ℕ) : Except String Serving := do
  let data ← server.codec.syncDataPage e.1 ops shareMessages (← usizeSub shareBytes extra)
  let result := { result with more := result.more || data.cut }
  if pass = false ∧ data.messages = [] ∧ result.more = true ∧ result.missing.isEmpty ∧ result.positions.isEmpty ∧
      result.continued = false then
    return { s with deferred := s.deferred ++ [e] }
  else
    let bytes ← usizeAdd s.bytes data.bytes
    let messages ← usizeAdd s.messages data.messages.length
    let bytes ← usizeAdd bytes extra
    let pageLen ← server.codec.framedMessageLen (Reply.page (emptyPage e.1)).message
    let held := WireCodec.satAdd s.held
      (pageBound server.opSize data.bytes (data.messages.map SyncMessage.opCount).sum)
    return { s with
      bytes := bytes
      messages := messages
      held := WireCodec.satAdd held (pageBound server.opSize (pageLen + extra) 0)
      responses := s.responses ++ data.messages.map .data ++ [.page result] }

/-- One request of a pass. The flag says that the planner goes on with the same request, in another slice. -/
def serveRequest (granted : ℕ) (limits : StreamLimits) (served pass : Bool) (s : Serving) (e : TopicRequest) :
    Except String (Bool × Serving) := do
  let shareBytes ← usizeDiv (← usizeSub limits.bytes s.bytes) s.left
  let shareMessages ← usizeDiv (← usizeSub limits.messages s.messages) s.left
  let left ← usizeSub s.left 1
  let budget := server.pageBudget e.2 shareBytes shareMessages (granted - s.held)
  let planned := server.plan s.calls e.1 e.2 budget
  let s := { s with left := left, calls := s.calls + 1 }
  match planned with
  | .error _ => return (false, ← server.failRequest s e.1)
  | .ok page =>
    let result : SyncPage := ⟨e.1, page.more, page.missing, page.positions, page.continued⟩
    let extra ← usizeSub result.encode.length (emptyPage e.1).encode.length
    if extra > shareBytes then return (false, ← server.failRequest s e.1)
    else if served ∧ result.continued ∧ result.positions.isEmpty ∧ result.missing.isEmpty then return (true, s)
    else
      let result := if served then { result with continued := false } else result
      return (false, ← server.fillPage pass s e page.ops result extra shareBytes shareMessages)

/-- One pass over the requests. Those behind an unfinished plan are returned, with the ones set aside. -/
def servePass (granted : ℕ) (limits : StreamLimits) (served pass : Bool) :
    List TopicRequest → Serving → Except String (List TopicRequest × Serving)
  | [], s => .ok ([], s)
  | e :: pending, s => do
    let (unfinished, s) ← server.serveRequest granted limits served pass s e
    if unfinished then return (e :: pending ++ s.deferred, s)
    else servePass granted limits served pass pending s

/-- What `finish_slice` returns: the replies, the bytes of their pages, and the session and the planner's
calls. -/
structure Slice where
  responses : List Reply
  held : ℕ
  session : SyncSession
  calls : ℕ

/-- `finish_slice`. -/
def finishSlice (session : SyncSession) (calls granted : ℕ) (limits : StreamLimits)
    (served : Bool) : Except String Slice := do
  let responses ← server.controlReplies session
  match session.remotePeerId with
  | none => return ⟨responses, 0, .taken, calls⟩
  | some peerId =>
    let requests := session.requests.toList
    let pageLen ← server.codec.framedMessageLen (Reply.page (emptyPage (IdType.ofNat 0))).message
    let reserved ← usizeMul requests.length pageLen
    let lens ← responses.mapM fun r => server.codec.framedMessageLen r.message
    let bytes ← lens.foldlM usizeAdd reserved
    let messages ← usizeAdd responses.length requests.length
    if bytes > limits.bytes ∨ messages > limits.messages then
      .error "sync reply controls exceed the stream budget"
    else
      let start : Serving := ⟨bytes, messages, requests.length, calls, 0, responses, []⟩
      let (rest, s) ← server.servePass granted limits served false requests start
      if rest ≠ [] then return ⟨s.responses, s.held, .waiting peerId rest, s.calls⟩
      else
        let (rest, s) ← server.servePass granted limits served true s.deferred
          { s with left := s.deferred.length, deferred := [] }
        if rest ≠ [] then return ⟨s.responses, s.held, .waiting peerId rest, s.calls⟩
        else
          streamFits server.codec (s.responses.map Reply.message) limits
          return ⟨s.responses, s.held, .waiting peerId [], s.calls⟩

/-- The variables of the last loop of `handle_stream`. -/
structure Slices where
  session : SyncSession
  remaining : StreamLimits
  used : ℕ := 0
  calls : ℕ := 0
  responses : List Reply := []

/-- One slice of `handle_stream`, with what is left of the grant and of the limits. The bytes used wrap as a
`usize` does. -/
def nextSlice (granted : ℕ) (st : Slices) : Except String Slices := do
  let slice ← server.finishSlice st.session st.calls (granted - (maxFrameLen + 4) - st.used) st.remaining true
  let lens ← slice.responses.mapM fun r => server.codec.framedMessageLen r.message
  return {
    session := slice.session
    remaining := { st.remaining with
      bytes := lens.foldl (fun bytes len => bytes - len) st.remaining.bytes
      messages := st.remaining.messages - slice.responses.length }
    used := (st.used + slice.held) % usizeSize
    calls := slice.calls
    responses := st.responses ++ slice.responses }

/-- The first slices of `handle_stream`, until no request remains. -/
def serveSlices (granted : ℕ) : ℕ → Slices → Except String Slices
  | 0, st => .ok st
  | n + 1, st => do
    let st ← server.nextSlice granted st
    if st.session.requests.isEmpty then return st else serveSlices granted n st

end Server

end Irokle
