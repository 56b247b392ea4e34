import Irokle.Lib.Postcard
import Irokle.Spec.Env

/-!
# Frames and pages of operations

How a node frames sync messages (`src/frame.rs`) and cuts a sequence of operations into data messages
(`src/net.rs`). The codec of operations comes from `postcard`: `put` writes one, `take` reads one from
the front of some bytes.
-/

namespace Irokle

open Std Postcard

/-- `MAX_SYNC_DATA_OPS_PER_MESSAGE`. -/
def maxSyncDataOpsPerMessage : ℕ := 256

/-- How many values a `usize` has. -/
def usizeSize : ℕ := 2 ^ 64

/-- The tag of a data message among the kinds of messages. -/
def dataTag : ℕ := 4

/-- `SyncData`: the ops of a data message. -/
structure SyncData where
  topicId : TopicId
  ops : List Op
deriving DecidableEq

/-- `SyncMessage`: a data message, or one of another kind with its encoding. -/
inductive SyncMessage
  | data (data : SyncData)
  | other (tag : ℕ) (body : Bytes)
deriving DecidableEq

/-- The `postcard` codec of operations, and where the encoding of a message of another kind ends. -/
structure WireCodec where
  put : Op → Bytes
  take : Bytes → Option (Op × Bytes)
  takeOther : ℕ → Bytes → Option (Bytes × Bytes)

/-! ## Frames -/

/-- `u32::to_be_bytes`. -/
def toBeBytes (n : ℕ) : Bytes :=
  [UInt8.ofNat (n / 2 ^ 24), UInt8.ofNat (n / 2 ^ 16), UInt8.ofNat (n / 2 ^ 8), UInt8.ofNat n]

/-- `u32::from_be_bytes`. -/
def fromBeBytes (bytes : Bytes) : ℕ := bytes.foldl (fun n b => 256 * n + b.toNat) 0

/-- `encode_frame`. -/
def encodeFrame (payload : Bytes) : Except String Bytes :=
  if payload.length > maxFrameLen then .error "sync frame exceeds maximum length"
  else .ok (toBeBytes payload.length ++ payload)

/-- `decode_frame`: the payload of the first frame and the bytes it took, or `none` while it is incomplete. -/
def decodeFrame (input : Bytes) : Except String (Option (Bytes × ℕ)) :=
  if input.length < 4 then .ok none
  else
    let len := fromBeBytes (input.take 4)
    if len > maxFrameLen then .error "sync frame exceeds maximum length"
    else
      let last := 4 + len
      if input.length < last then .ok none else .ok (some ((input.take last).drop 4, last))

namespace WireCodec

variable (codec : WireCodec)

/-- `encode_sync_message`. -/
def encodeSyncMessage : SyncMessage → Bytes
  | .data data => putU32 dataTag ++ putArray data.topicId.bytes ++ putU64 data.ops.length ++
    data.ops.flatMap codec.put
  | .other tag body => putU32 tag ++ body

/-- Read some operations. -/
def takeOps : ℕ → Bytes → Option (List Op × Bytes)
  | 0, bytes => some ([], bytes)
  | count + 1, bytes => do
    let (op, bytes) ← codec.take bytes
    let (ops, bytes) ← takeOps count bytes
    return (op :: ops, bytes)

/-- Read a message from the front of some bytes. -/
def takeMessage (bytes : Bytes) : Option (SyncMessage × Bytes) := do
  let (tag, bytes) ← takeU32 bytes
  if tag = dataTag then
    let (topic, bytes) ← takeArray bytes
    let (count, bytes) ← takeU64 bytes
    let (ops, bytes) ← codec.takeOps count bytes
    return (.data ⟨⟨topic⟩, ops⟩, bytes)
  else
    let (body, bytes) ← codec.takeOther tag bytes
    return (.other tag body, bytes)

/-- `decode_sync_message`. -/
def decodeSyncMessage (bytes : Bytes) : Except String SyncMessage :=
  match codec.takeMessage bytes with
  | none => .error "invalid sync message"
  | some (message, remainder) =>
    if remainder ≠ [] then .error "trailing bytes in sync message"
    else
      match message with
      | .data data =>
        if data.ops.length > maxSyncDataOpsPerMessage then .error "sync data exceeds maximum operation count"
        else .ok message
      | .other _ _ => .ok message

/-- `postcard::serialized_size` of a message. -/
def serializedSize (message : SyncMessage) : ℕ := (codec.encodeSyncMessage message).length

/-- The length of an encoded count. -/
def countLen (count : ℕ) : ℕ := (putU64 count).length

/-- `framed_message_len`. -/
def framedMessageLen (message : SyncMessage) : Except String ℕ :=
  if codec.serializedSize message > maxFrameLen then .error "sync frame exceeds maximum length"
  else .ok (4 + codec.serializedSize message)

/-- `validate_op`. -/
def validateOp (op : Op) : Result Unit :=
  if codec.serializedSize (.data ⟨op.body.topicId, []⟩) + (codec.put op).length > maxFrameLen then
    .error .opTooLarge
  else .ok ()

/-! ## Pages -/

/-- The messages of a page and the operations of the open one. -/
structure Page where
  messages : List SyncMessage := []
  current : List Op := []
  currentLen : ℕ := 0
  closedBytes : ℕ := 0
  cut : Bool := false

/-- `DataPage`. -/
structure DataPage where
  messages : List SyncMessage
  bytes : ℕ
  cut : Bool
deriving DecidableEq

/-- `usize::saturating_add`. -/
def satAdd (a b : ℕ) : ℕ := min (a + b) (usizeSize - 1)

/-- The bytes of the open message. -/
def openBytes (overhead : ℕ) (s : Page) : ℕ :=
  if s.current = [] then 0 else overhead + countLen s.current.length + s.currentLen

/-- Whether an operation joins the open message, and the number of messages and of bytes with it. -/
def plan (overhead : ℕ) (s : Page) (op : Op) : Bool × ℕ × ℕ :=
  let opLen := (codec.put op).length
  let joined := overhead + countLen (s.current.length + 1) + s.currentLen + opLen
  if s.current ≠ [] ∧ s.current.length < maxSyncDataOpsPerMessage ∧ joined ≤ maxFrameLen + 4 then
    (true, s.messages.length + 1, satAdd s.closedBytes joined)
  else (false, s.messages.length + (if s.current = [] then 0 else 1) + 1,
    satAdd (satAdd s.closedBytes (openBytes overhead s)) (overhead + countLen 1 + opLen))

/-- Take an operation, after closing the open message unless the operation joins it. The running total wraps as a
`usize` does. -/
def takeOp (t : TopicId) (overhead : ℕ) (s : Page) (op : Op) (joins : Bool) : Page :=
  let s := if joins = false ∧ s.current ≠ [] then
      { s with
        closedBytes := (s.closedBytes + openBytes overhead s) % usizeSize
        currentLen := 0
        messages := s.messages ++ [.data ⟨t, s.current⟩]
        current := [] }
    else s
  { s with currentLen := s.currentLen + (codec.put op).length, current := s.current ++ [op] }

/-- The loop of `sync_data_page`. -/
def pageLoop (t : TopicId) (overhead maxMessages maxBytes : ℕ) : List Op → Page → Except String Page
  | [], s => .ok s
  | op :: ops, s =>
    if overhead + countLen 1 + (codec.put op).length > maxFrameLen + 4 then
      .error "operation exceeds sync frame size limit"
    else
      let (joins, count, bytes) := codec.plan overhead s op
      if count > maxMessages ∨ bytes > maxBytes then .ok { s with cut := true }
      else pageLoop t overhead maxMessages maxBytes ops (codec.takeOp t overhead s op joins)

/-- `sync_data_page`. -/
def syncDataPage (t : TopicId) (ops : List Op) (maxMessages maxBytes : ℕ) : Except String DataPage := do
  let overhead := (← codec.framedMessageLen (.data ⟨t, []⟩)) - countLen 0
  let s ← codec.pageLoop t overhead maxMessages maxBytes ops {}
  if s.current = [] then return ⟨s.messages, s.closedBytes, s.cut⟩
  else return ⟨s.messages ++ [.data ⟨t, s.current⟩],
    (s.closedBytes + openBytes overhead s) % usizeSize, s.cut⟩

end WireCodec

end Irokle
