import Irokle.Lib.Keys
import Irokle.Spec.Evidence

/-!
# The keys of a Fjall store

All records of a store lie in one keyspace of byte strings (`src/storage/fjall/store.rs`, `pending.rs`,
`provisional.rs`). The key of a record is a short tag followed by ids and numbers of fixed width.
Readers scan the keys behind a prefix or between two bounds, some with a check of the key's length.
-/

namespace Irokle.Fjall

open Keys

/-- What a key names. -/
inductive Field
  | id (k : IdKind)
  | hash
  | seq
  | slot
  | kind

/-- The values of a field. -/
def Field.Value : Field → Type
  | .id k => IdType k
  | .hash => Digest
  | .seq => Fin (2 ^ 64)
  | .slot => Fin (2 ^ 32)
  | .kind => ObligationKind

/-- The bytes of a field. -/
def Field.width : Field → ℕ
  | .id _ | .hash => 32
  | .seq => 8
  | .slot => 4
  | .kind => 1

/-- The number whose big-endian bytes stand in the key; a kind is a letter. -/
def Field.number : (f : Field) → f.Value → ℕ
  | .id _, v => v.bytes.val
  | .hash, v => v.val
  | .seq, v => v.val
  | .slot, v => v.val
  | .kind, v => match v with
    | .clock => 'c'.toNat
    | .repair => 'r'.toNat

/-- The families of records. -/
inductive Family
  | op | metadata | heads | actorClock | fingerprint | maxGeneration | topicState | child | actorIndex | actorTip
  | topicIndex | clockNode | peerAck | obligation | status | payload | record | byTopic | waiter | ready
  | waiterCount | totalUsage | sourceUsage | topicUsage | since | rejected | rejectedOrder | rejectedRange
  | topicEpoch | sealedTopic | eviction | staged | slot | sessions | activating | clearing | admittedBytes
  | attemptEpoch | schemaVersion | clockMigration | legacyPhase | pendingOp | convertedAck | convertedObligation
deriving DecidableEq

/-- The tag of a family. A converted ack or obligation stands under `zm` and its later key. -/
def Family.tag : Family → List Char
  | .op => ['o'] | .metadata => ['m'] | .heads => ['h'] | .actorClock => ['a', 'c'] | .fingerprint => ['f', 'p']
  | .maxGeneration => ['m', 'g'] | .topicState => ['t', 's'] | .child => ['c', 'h'] | .actorIndex => ['a', 's']
  | .actorTip => ['a', 't'] | .topicIndex => ['t', 'o'] | .clockNode => ['c', 'n'] | .peerAck => ['a', 'k']
  | .obligation => ['o', 'b'] | .status => ['s', 's'] | .payload => ['p', 'p'] | .record => ['p', 'm']
  | .byTopic => ['p', 't'] | .waiter => ['p', 'w'] | .ready => ['p', 'r'] | .waiterCount => ['w', 'n']
  | .totalUsage => ['p', 'u'] | .sourceUsage => ['p', 's'] | .topicUsage => ['p', 'c'] | .since => ['p', 'e']
  | .rejected => ['r', 'j'] | .rejectedOrder => ['r', 'q'] | .rejectedRange => ['r', 'c']
  | .topicEpoch => ['e', 'p'] | .sealedTopic => ['s', 'e'] | .eviction => ['e', 'v'] | .staged => ['b', 'n']
  | .slot => ['b', 's'] | .sessions => ['b', 'c'] | .activating => ['b', 'a'] | .clearing => ['b', 'q']
  | .admittedBytes => ['n', 'b'] | .attemptEpoch => ['a', 'e'] | .schemaVersion => ['s', 'v']
  | .clockMigration => ['s', 'm'] | .legacyPhase => ['s', 'q'] | .pendingOp => ['p', 'o']
  | .convertedAck => ['z', 'm', 'a', 'k'] | .convertedObligation => ['z', 'm', 'o', 'b']

/-- The fields behind the tag. -/
def Family.layout : Family → List Field
  | .op | .metadata | .payload | .record | .ready | .waiterCount | .since | .pendingOp => [.id .op]
  | .heads | .actorClock | .fingerprint | .maxGeneration | .topicState | .topicUsage | .rejectedRange
  | .topicEpoch | .sealedTopic | .activating => [.id .topic]
  | .child | .waiter => [.id .op, .id .op]
  | .actorIndex => [.id .topic, .id .actor, .seq]
  | .actorTip => [.id .topic, .id .actor]
  | .topicIndex | .byTopic | .rejected => [.id .topic, .id .op]
  | .clockNode => [.id .topic, .hash]
  | .peerAck | .status | .convertedAck => [.id .topic, .id .peer]
  | .obligation | .convertedObligation => [.id .topic, .id .peer, .kind]
  | .sourceUsage => [.id .peer]
  | .rejectedOrder => [.id .topic, .seq]
  | .eviction => [.id .eviction]
  | .staged => [.id .peer, .id .topic]
  | .slot | .clearing => [.slot]
  | .totalUsage | .sessions | .admittedBytes | .attemptEpoch | .schemaVersion | .clockMigration | .legacyPhase =>
    []

/-- The values of some fields. -/
inductive Fields : List Field → Type
  | nil : Fields []
  | cons {f : Field} {fs : List Field} (v : f.Value) (vs : Fields fs) : Fields (f :: fs)

/-- The bytes of each field. -/
def Fields.parts : {fs : List Field} → Fields fs → List Key
  | _, .nil => []
  | f :: _, .cons v vs => be f.width (f.number v) :: vs.parts

/-- A record of the store, by what its key names. -/
structure Record where
  family : Family
  fields : Fields family.layout

/-- The bytes of a tag. -/
def bytes (tag : List Char) : Key := tag.map fun c => ⟨c.toNat % 256, Nat.mod_lt _ (by decide)⟩

/-- The key of a record. -/
def Record.key (r : Record) : Key := bytes r.family.tag ++ r.fields.parts.flatten

/-- What a scan with the first `k` fields given looks for. -/
def Record.scan (r : Record) (k : ℕ) : Key := bytes r.family.tag ++ (r.fields.parts.take k).flatten

/-- `is_op_key`. -/
def isOpKey (key : Key) : Bool := key.length == 33 && (bytes ['o']).isPrefixOf key

/-- `copied_record`. -/
def copiedRecord (key : Key) : Bool :=
  (key.take 1 == bytes ['o'] || key.take 1 == bytes ['m']) && key.length == 33 ||
    (key.take 2 == bytes ['c', 'h'] || key.take 2 == bytes ['a', 't'] || key.take 2 == bytes ['t', 'o'] ||
      key.take 2 == bytes ['c', 'n']) && key.length == 66 ||
    key.take 2 == bytes ['a', 's'] && key.length == 74

/-- What a scan checks of a key. -/
inductive Check
  | none
  | length (n : ℕ)
  | notOp

/-- The key passes the check. -/
def Check.keep : Check → Key → Bool
  | .none, _ => true
  | .length n, key => key.length == n
  | .notOp, key => !isOpKey key

/-- The prefix scans: the family they read, how many of its fields are given, and what they check. -/
def scans : List (Family × ℕ × Check) :=
  [ -- the records of a topic, of an op and of a peer
    (.child, 1, .none), (.actorIndex, 1, .none), (.actorTip, 1, .none), (.topicIndex, 1, .none),
    (.clockNode, 1, .none),
    (.peerAck, 1, .none), (.status, 1, .none), (.obligation, 1, .none), (.obligation, 2, .none),
    -- whole families; an op key can start with `ob`, and `mg` keys start with `m`
    (.obligation, 0, .length 67), (.metadata, 0, .length 33), (.topicState, 0, .none), (.eviction, 0, .none),
    (.clockNode, 0, .none),
    -- the buffer
    (.byTopic, 1, .none), (.waiter, 1, .none), (.rejected, 1, .none), (.rejectedOrder, 1, .none),
    (.since, 0, .none), (.record, 0, .none),
    -- the registry of namespaces
    (.staged, 0, .none), (.slot, 0, .none), (.clearing, 0, .none),
    -- the upgrade of schema 1
    (.peerAck, 0, .none), (.obligation, 0, .notOp), (.sourceUsage, 0, .none), (.waiter, 0, .none),
    (.waiterCount, 0, .none), (.pendingOp, 0, .none) ]

/-- Where a range starts. -/
inductive Start
  | included (key : Key)
  | excluded (key : Key)

/-- The key lies behind the start. -/
def Start.admits : Start → Key → Prop
  | .included a, key => a ≤ key
  | .excluded a, key => a < key

/-- Where a range behind a prefix ends: before another tag, or with the largest last field. -/
inductive Stop
  | before (tag : List Char)
  | largest (w : ℕ)

/-- The key lies before the end. -/
def Stop.admits (p : Key) : Stop → Key → Prop
  | .before tag, key => key < bytes tag
  | .largest w, key => key ≤ p ++ List.replicate w (Fin.last 255)

/-- The range scans: `read_actor_range`, `topic_ids_after`, `ready_pending_after` and `tx_migration_step`.
Each starts at its prefix or at a key it has seen. -/
def ranges : List (Family × ℕ × Check × Stop) :=
  [(.actorIndex, 2, .none, .largest 8), (.topicIndex, 1, .none, .largest 32),
    (.ready, 0, .none, .before ['p', 's']), (.metadata, 0, .length 33, .before ['n'])]

end Irokle.Fjall
