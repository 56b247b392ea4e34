import Irokle.Lib.Postcard
import Irokle.Spec.Clock
import Irokle.Spec.Types

/-!
# Stored clock nodes

`src/clock_store.rs`: the stored form of a trie node and its hash, the records of a clock, and a
clock loaded from its root node; `src/clock_scan.rs`: the validation of all node records of a
namespace in one pass.

The digest is a parameter. Which nodes a cache still holds depends on what the rest of the program
keeps alive, so a load asks it at each place of its recursion. The recursion follows the names in
records that may be damaged; `fuel` bounds its depth.
-/

namespace Irokle

open Std Postcard

/-! ## Encoding -/

/-- `Encoded`: one node, its children named by their hashes. -/
inductive Encoded
  | leaf (actor : ActorId) (seq : ℕ)
  | branch (level : ℕ) (bitmap : BitVec 16) (len : ℕ) (key : ActorId) (children : List Digest)
deriving DecidableEq

namespace Encoded

/-- `postcard::to_allocvec`. -/
def encode : Encoded → Bytes
  | leaf actor seq => putU32 0 ++ (putArray actor.bytes ++ putU64 seq)
  | branch level bitmap len key children =>
    putU32 1 ++ (putU8 level ++ (putU16 bitmap.toNat ++ (putU64 len ++
      (putArray key.bytes ++ (putU64 children.length ++ putMany children)))))

/-- `postcard::from_bytes`. Bytes that are left over are not looked at. -/
def decode (bytes : Bytes) : Option Encoded := do
  let (variant, bytes) ← takeU32 bytes
  match variant with
  | 0 =>
    let (actor, bytes) ← takeArray bytes
    let (seq, _) ← takeU64 bytes
    return leaf ⟨actor⟩ seq
  | 1 =>
    let (level, bytes) ← takeU8 bytes
    let (bitmap, bytes) ← takeU16 bytes
    let (len, bytes) ← takeU64 bytes
    let (key, bytes) ← takeArray bytes
    let (count, bytes) ← takeU64 bytes
    let (children, _) ← takeMany count bytes
    return branch level (BitVec.ofNat 16 bitmap) len ⟨key⟩ children
  | _ => none

end Encoded

namespace ClockNode

variable (digest : Bytes → Digest)

mutual

/-- `Node::encoded`. -/
def encoded : ClockNode → Encoded
  | leaf actor seq _ => .leaf actor seq
  | branch level bitmap len key children _ => .branch level bitmap len key (childHashes children)

/-- `children.iter().map(|child| child.hash())`, where the hash of a child is the one it caches, if
any, and the digest of its stored form otherwise. -/
def childHashes : List ClockNode → List Digest
  | [] => []
  | leaf actor seq hash :: rest =>
    hash.getD (digest (Encoded.leaf actor seq).encode) :: childHashes rest
  | branch level bitmap len key children hash :: rest =>
    hash.getD (digest (Encoded.branch level bitmap len key (childHashes children)).encode) :: childHashes rest

end

/-- The cached hash of a node. -/
def cell : ClockNode → Option Digest
  | leaf _ _ hash => hash
  | branch _ _ _ _ _ hash => hash

/-- `Node::hash`. -/
def hash (n : ClockNode) : Digest := n.cell.getD (digest (n.encoded digest).encode)

/-- `visit_nodes` from the nodes on its stack, when no node is reported as held: every node under
its hash, parents first. -/
def visitFrom : List ClockNode → List (Digest × Bytes)
  | [] => []
  | leaf actor seq cell :: stack =>
    ((leaf actor seq cell).hash digest, ((leaf actor seq cell).encoded digest).encode) :: visitFrom stack
  | branch level bitmap len key children cell :: stack =>
    ((branch level bitmap len key children cell).hash digest,
      ((branch level bitmap len key children cell).encoded digest).encode) ::
      visitFrom (children.reverse ++ stack)
termination_by stack => (stack.map sizeOf).sum
decreasing_by
  · simp
  · simp only [List.unattach_reverse, List.unattach_attach, List.map_append, List.sum_append, List.map_cons,
      List.sum_cons, branch.sizeOf_spec, List.map_reverse, List.sum_reverse]
    have := sum_sizeOf_lt children
    omega

end ClockNode

namespace ClockTrie

/-- The records that storing a clock writes. -/
def records (digest : Bytes → Digest) (c : ClockTrie) : List (Digest × Bytes) :=
  ClockNode.visitFrom digest c.root.toList

end ClockTrie

/-! ## Loading -/

/-- `corrupt`. -/
def corrupt : Error := .storage "corrupt stored clock node"

/-- What a load reads from: the digest, the stored records, and the cached nodes that are alive when
the load asks at a place of its recursion. -/
structure NodeReader where
  digest : Bytes → Digest
  fetch : Digest → Option Bytes
  held : List ℕ → Digest → Option ClockNode := fun _ _ => none

namespace NodeReader

variable (S : NodeReader)

/-- A child shares its parent's nibbles before the parent's level and branches, if at all, below it. -/
def inPlace (node : ClockNode) : Option (ℕ × ActorId) → Bool
  | none => true
  | some (level, key) =>
    (match node with
      | .leaf _ _ _ => true
      | .branch child _ _ _ _ _ => decide (level < child)) && !(firstDifference node.key key).any (· < level)

/-- `children.windows(2)`: two neighbours out of order. -/
def unordered (level : ℕ) : List ClockNode → Bool
  | x :: y :: rest => decide (nibble y.key level ≤ nibble x.key level) || unordered level (y :: rest)
  | _ => false

/-- The checks of a branch once its children are loaded. -/
def checkBranch (level : ℕ) (bitmap : BitVec 16) (len : ℕ) (key : ActorId) (hash : Digest)
    (children : List ClockNode) :
    Result ClockNode :=
  let digits := children.foldl (fun bits child => bits ||| 1#16 <<< nibble child.key level) 0#16
  let total := ClockNode.sumLen children
  if digits ≠ bitmap ∨ total ≠ len ∨ unordered level children then .error corrupt
  else .ok (.branch level bitmap total key children (some hash))

/-- The children of a branch, in order; the first that fails ends it. -/
def loadChildren (load : List ℕ → Digest → Option (Result ClockNode)) (site : List ℕ) : ℕ → List Digest →
    Option (Result (List ClockNode))
  | _, [] => some (.ok [])
  | index, name :: names =>
    match load (index :: site) name with
    | none => none
    | some (.error e) => some (.error e)
    | some (.ok child) => (loadChildren load site (index + 1) names).map fun r => r.map (child :: ·)

/-- A node from its record. -/
def readNode (load : List ℕ → Digest → Option (ℕ × ActorId) → Option (Result ClockNode)) (site : List ℕ)
    (hash : Digest) (bytes : Bytes) : Option (Result ClockNode) :=
  if S.digest bytes ≠ hash then some (.error corrupt) else
  match Encoded.decode bytes with
  | none => some (.error (.encode "postcard"))
  | some (.leaf actor seq) => some (.ok (.leaf actor seq (some hash)))
  | some (.branch level bitmap len key children) =>
    if 64 ≤ level ∨ children.length < 2 ∨ Radix.countOnes bitmap ≠ children.length then some (.error corrupt)
    else
      (loadChildren (fun site name => load site name (some (level, key))) site 0 children).map fun r =>
        r.bind (checkBranch level bitmap len key hash)

/-- `ClockCache::node`. The result is `none` while the recursion is deeper than `fuel`. -/
def node : ℕ → List ℕ → Digest → Option (ℕ × ActorId) → Option (Result ClockNode)
  | 0, _, _, _ => none
  | fuel + 1, site, hash, parent =>
    let found : Option (Result ClockNode) := match S.held site hash with
      | some node => some (.ok node)
      | none => match S.fetch hash with
        | none => some (.error corrupt)
        | some bytes => S.readNode (node fuel) site hash bytes
    found.map fun r => r.bind fun node => if inPlace node parent then .ok node else .error corrupt

/-- `ActorClock::load`. -/
def load (fuel : ℕ) (root : Digest) : Option (Result ClockTrie) :=
  (S.node fuel [] root none).map fun r => r.map fun node => ⟨some node⟩

end NodeReader

/-! ## Scanning -/

/-- `Checked`: what a scan keeps of a record. A leaf has level 64. -/
structure Checked where
  key : ActorId
  len : ℕ
  level : ℕ
  bitmap : BitVec 16
  children : List Digest

/-- `ClockScan`. The records are dropped for point reads once they outgrow the memory limit. -/
structure ClockScan where
  nodes : Option (BTreeMap Digest Checked) := some ∅
  complete : Bool := false

namespace ClockScan

/-- `Prefix`: a record up to its children. -/
inductive PrefixRecord
  | leaf (actor : ActorId)
  | branch (level : ℕ) (bitmap : BitVec 16) (len : ℕ) (key : ActorId)

/-- `postcard::take_from_bytes`. -/
def takePrefix (bytes : Bytes) : Option (PrefixRecord × Bytes) := do
  let (variant, bytes) ← takeU32 bytes
  match variant with
  | 0 =>
    let (actor, bytes) ← takeArray bytes
    let (_, bytes) ← takeU64 bytes
    return (.leaf ⟨actor⟩, bytes)
  | 1 =>
    let (level, bytes) ← takeU8 bytes
    let (bitmap, bytes) ← takeU16 bytes
    let (len, bytes) ← takeU64 bytes
    let (key, bytes) ← takeArray bytes
    return (.branch level (BitVec.ofNat 16 bitmap) len ⟨key⟩, bytes)
  | _ => none

/-- The part of `push` that reads a record. -/
def checkRecord (bytes : Bytes) : Result Checked :=
  match takePrefix bytes with
  | none => .error (.encode "postcard")
  | some (.leaf actor, _) => .ok { key := actor, len := 1, level := 64, bitmap := 0#16, children := [] }
  | some (.branch level bitmap len key, rest) =>
    match takeU64 rest with
    | none => .error (.encode "postcard")
    | some (count, rest) =>
      if 64 ≤ level ∨ ¬(2 ≤ count ∧ count ≤ 16) ∨ Radix.countOnes bitmap ≠ count then .error corrupt
      else if rest.length < count * 32 then .error corrupt
      else
        -- `as_chunks::<32>()`
        .ok { key, len, level, bitmap
              children := (List.range count).map fun i => arrayOf ((rest.drop (32 * i)).take 32) }

variable (digest : Bytes → Digest) (outgrown : BTreeMap Digest Checked → Checked → Bool)

/-- `ClockScan::push`. `outgrown` is the test of the memory limit. -/
def push (scan : ClockScan) (hash : Digest) (bytes : Bytes) : Result ClockScan :=
  if digest bytes ≠ hash then .error corrupt else
  match scan.nodes with
  | none => .ok scan
  | some nodes =>
    if hash ∈ nodes then .ok scan
    else if scan.complete then .error corrupt
    else do
      let checked ← checkRecord bytes
      if outgrown nodes checked then return { scan with nodes := none }
      else return { scan with nodes := some (nodes.insert hash checked) }

/-- The loop over the children of one record in `validate`: the digits and the entries counted so
far, and the digit before. -/
def checkChildren (nodes : BTreeMap Digest Checked) (node : Checked) :
    List Digest → BitVec 16 → ℕ → Option ℕ → Result (BitVec 16 × ℕ)
  | [], bitmap, len, _ => .ok (bitmap, len)
  | name :: names, bitmap, len, previous =>
    match nodes[name]? with
    | none => .error corrupt
    | some child =>
      if child.level ≤ node.level ∨ (firstDifference child.key node.key).any (· < node.level) then .error corrupt
      else
        let digit := nibble child.key node.level
        if previous.any (digit ≤ ·) then .error corrupt
        -- `checked_add`
        else if u64Size ≤ len + child.len then .error corrupt
        else checkChildren nodes node names (bitmap ||| 1#16 <<< digit) (len + child.len) (some digit)

/-- The body of the loop of `validate`. -/
def checkNode (nodes : BTreeMap Digest Checked) (node : Checked) : Result Unit := do
  let (bitmap, len) ← checkChildren nodes node node.children 0#16 0 none
  if bitmap ≠ node.bitmap ∨ len ≠ node.len then throw corrupt

/-- `ClockScan::validate`. `load` is the load through the fallback cache. -/
def validate (scan : ClockScan) (load : Digest → Option (Result ClockTrie)) (root : Digest) : Option
    (Result ClockScan) :=
  match scan.nodes with
  | none => (load root).map fun r => r.map fun _ => scan
  | some nodes =>
    some <| do
      if !scan.complete then
        ((nodes.toList.map Prod.snd).filter fun node => node.level < 64).forM (checkNode nodes)
      if root ∈ nodes then return { scan with complete := true } else throw corrupt

end ClockScan

end Irokle
