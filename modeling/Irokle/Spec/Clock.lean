import Irokle.Lib.Radix
import Irokle.Spec.Ids

/-!
# The trie of an actor clock

`src/clock.rs`: an actor clock is a persistent trie over the nibbles of actor ids. Each branch
names its children in a bitmap and skips the nibbles that all its entries share.

`Arc::ptr_eq` is answered by the allocations of a run, which the values do not determine. `PtrEq`
holds its answers during one call; what it is bound to is that one allocation holds one node.
-/

namespace Irokle

open Std

/-! ## Nibbles -/

/-- `as_bytes()[index]`. -/
def IdType.byte {k : IdKind} (i : IdType k) (index : ℕ) : ℕ := Radix.digit 256 32 i.bytes.val index

/-- `nibble`: the nibble of `actor` at `level`, the high nibble of each byte first. -/
def nibble (actor : ActorId) (level : ℕ) : ℕ :=
  let byte := actor.byte (level / 2)
  if level % 2 = 0 then byte >>> 4 else byte &&& 0x0f

/-- `first_difference`: the first nibble where two actors differ. -/
def firstDifference (a b : ActorId) : Option ℕ :=
  ((List.range 32).find? fun index => a.byte index != b.byte index).map fun byte =>
    let high := (a.byte byte ^^^ b.byte byte) >>> 4 = 0
    byte * 2 + if high then 1 else 0

/-- `slot`: the position of a nibble among the children a bitmap names. -/
def slot (bitmap : BitVec 16) (nibble : ℕ) : ℕ := Radix.countOnes (bitmap &&& (1#16 <<< nibble - 1#16))

/-! ## Nodes -/

/-- `Node`. A branch holds entries that share the nibbles of `key` before `level`. The last field of
either is the cached hash of the stored form. -/
inductive ClockNode
  | leaf (actor : ActorId) (seq : ℕ) (hash : Option Digest)
  | branch (level : ℕ) (bitmap : BitVec 16) (len : ℕ) (key : ActorId) (children : List ClockNode)
  (hash : Option Digest)

/-- The answers of `Arc::ptr_eq` at the sites of one call. -/
structure PtrEq where
  same : List ℕ → ClockNode → ClockNode → Bool
  sound : ∀ site a b, same site a b = true → a = b

namespace ClockNode

/-- `Node::key`. -/
def key : ClockNode → ActorId
  | leaf actor _ _ => actor
  | branch _ _ _ key _ _ => key

/-- `Node::len`. -/
def len : ClockNode → ℕ
  | leaf _ _ _ => 1
  | branch _ _ len _ _ _ => len

/-- `leaf`. -/
def newLeaf (actor : ActorId) (seq : ℕ) : ClockNode := leaf actor seq none

/-- `children.iter().map(|child| child.len()).sum()`. -/
def sumLen (children : List ClockNode) : ℕ := (children.map len).sum

/-- `pair`: a branch over two subtrees whose keys first differ at `level`. -/
def pair (level : ℕ) (a b : ClockNode) : ClockNode :=
  let na := nibble a.key level
  let nb := nibble b.key level
  branch level (1#16 <<< na ||| 1#16 <<< nb) (a.len + b.len) a.key (if na < nb then [a, b] else [b, a]) none

/-! ### Reading -/

mutual

/-- `lookup`. -/
def lookup (actor : ActorId) : ClockNode → Option ℕ
  | leaf held seq _ => if held = actor then some seq else none
  | branch level bitmap _ _ children _ =>
    let digit := nibble actor level
    if bitmap.getLsbD digit then lookupAt actor children (slot bitmap digit) else none

/-- The lookup in the child at `index`. -/
def lookupAt (actor : ActorId) : List ClockNode → ℕ → Option ℕ
  | [], _ => none
  | child :: _, 0 => lookup actor child
  | _ :: children, index + 1 => lookupAt actor children index

end

theorem sum_sizeOf_lt (l : List ClockNode) : (l.map sizeOf).sum < sizeOf l := by
  induction l with
  | nil => simp
  | cons a l ih =>
    simp only [List.map_cons, List.sum_cons, List.cons.sizeOf_spec]
    omega

/-- `iter` from the nodes on its stack, the next one first. -/
def iterFrom : List ClockNode → List (ActorId × ℕ)
  | [] => []
  | leaf actor seq _ :: stack => (actor, seq) :: iterFrom stack
  | branch _ _ _ _ children _ :: stack => iterFrom (children ++ stack)
termination_by stack => (stack.map sizeOf).sum
decreasing_by
  · simp
  · simp only [List.map_append, List.sum_append, List.map_cons, List.sum_cons, branch.sizeOf_spec]
    have := sum_sizeOf_lt children
    omega

/-! ### Updates -/

/-- `(seq, difference)` of `set_node`: a subtree that does not hold the prefix of `actor` is paired
with a new leaf. -/
def setOutside (node : ClockNode) (actor : ActorId) (seq : Option ℕ) : ClockNode :=
  match seq, firstDifference node.key actor with
  | some seq, some difference => pair difference node (newLeaf actor seq)
  | _, _ => node

/-- A branch whose children changed: its key is that of the first one. -/
def rebranch (level : ℕ) (bitmap : BitVec 16) (key : ActorId) (children : List ClockNode) : ClockNode :=
  branch level bitmap (sumLen children) ((children.head?.map ClockNode.key).getD key) children none

mutual

/-- `set_node`: set `actor` below a node to `seq`, or remove it for `none`. The result is `none` when
the node became empty. -/
def setNode (actor : ActorId) (seq : Option ℕ) : ClockNode → Option ClockNode
  | leaf held s hash =>
    if held = actor then seq.map (newLeaf actor) else some (setOutside (leaf held s hash) actor seq)
  | branch level bitmap len key children hash =>
    if (firstDifference key actor).any (· < level) then
      some (setOutside (branch level bitmap len key children hash) actor seq)
    else
      let digit := nibble actor level
      let index := slot bitmap digit
      if !bitmap.getLsbD digit then
        match seq with
        | some seq => some (rebranch level (bitmap ||| 1#16 <<< digit) key
            (children.insertIdx index (newLeaf actor seq)))
        | none => some (rebranch level bitmap key children)
      else
        match setAt actor seq children index with
        | some child => some (rebranch level bitmap key (children.set index child))
        | none =>
          match children.eraseIdx index with
          | [only] => some only
          | children => some (rebranch level (bitmap &&& ~~~(1#16 <<< digit)) key children)

/-- `set_node` on the child at `index`. -/
def setAt (actor : ActorId) (seq : Option ℕ) : List ClockNode → ℕ → Option ClockNode
  | [], _ => none
  | child :: _, 0 => setNode actor seq child
  | _ :: children, index + 1 => setAt actor seq children index

end

/-- `observed`: `actor` at least at `seq`, inserted when absent. -/
def observed (node : ClockNode) (actor : ActorId) (seq : ℕ) : ClockNode :=
  if (node.lookup actor).any (seq ≤ ·) then node else (setNode actor (some seq) node).getD node

/-! ### Unions -/

/-- The child that a bitmap names under a digit. -/
def childAt (bitmap : BitVec 16) (children : List ClockNode) (digit : ℕ) : Option ClockNode :=
  if bitmap.getLsbD digit then children[slot bitmap digit]? else none

theorem mem_of_childAt {bitmap : BitVec 16} {children : List ClockNode} {digit : ℕ} {x : ClockNode}
    (h : childAt bitmap children digit = some x) : x ∈ children := by
  unfold childAt at h
  split at h
  · exact List.mem_of_getElem? h
  · cases h

variable (P : PtrEq)

/-- The closure `same` of `union_children`: the merged children are those of one side. -/
def sameChildren (site : List ℕ) (own children : List ClockNode) : Bool :=
  ((own.zip children).zipIdx).all fun e => P.same (e.2 :: site) e.1.1 e.1.2

mutual

/-- `union`: the entries of either trie at the higher position. -/
def union (site : List ℕ) (a b : ClockNode) : ClockNode :=
  if P.same site a b then a else
  match a, b with
  | a, leaf actor seq _ => observed a actor seq
  | leaf actor seq _, b => observed b actor seq
  | branch la ba na ka ca ha, branch lb bb nb kb cb hb =>
    match (firstDifference ka kb).filter (· < min la lb) with
    | some difference => pair difference (branch la ba na ka ca ha) (branch lb bb nb kb cb hb)
    | none =>
      if la = lb then unionChildren site la ba na ka ca ha lb bb nb kb cb hb
      else if la < lb then unionBelow site la ba na ka ca ha (branch lb bb nb kb cb hb)
      else unionBelow site lb bb nb kb cb hb (branch la ba na ka ca ha)
termination_by (sizeOf a + sizeOf b, 1)
decreasing_by
  · exact Prod.lex_def.2 (Or.inr ⟨rfl, Nat.zero_lt_one⟩)
  · exact Prod.lex_def.2 (Or.inr ⟨rfl, Nat.zero_lt_one⟩)
  · exact Prod.lex_def.2 (Or.inr ⟨Nat.add_comm _ _, Nat.zero_lt_one⟩)

/-- The end of `union`: the lower branch belongs under one child of the upper one. -/
def unionBelow (site : List ℕ) (level : ℕ) (bitmap : BitVec 16) (n : ℕ) (k : ActorId) (children : List ClockNode)
    (hash : Option Digest) (lower : ClockNode) : ClockNode :=
  let digit := nibble lower.key level
  let index := slot bitmap digit
  if bitmap.getLsbD digit then
    match _h : children[index]? with
    | some held =>
      let child := union (digit :: site) held lower
      if P.same (16 :: digit :: site) child held then branch level bitmap n k children hash
      else
        let merged := children.set index child
        branch level bitmap (sumLen merged) k merged none
    | none => branch level bitmap n k children hash
  else
    let merged := children.insertIdx index lower
    branch level (bitmap ||| 1#16 <<< digit) (sumLen merged) k merged none
termination_by (sizeOf (branch level bitmap n k children hash) + sizeOf lower, 0)
decreasing_by
  have := List.sizeOf_lt_of_mem (List.mem_of_getElem? _h)
  simp only [branch.sizeOf_spec, Prod.lex_def]
  omega

/-- `union_children`: the union of two branches at one level with one prefix. -/
def unionChildren (site : List ℕ) (la : ℕ) (ba : BitVec 16) (na : ℕ) (ka : ActorId) (ca : List ClockNode)
    (ha : Option Digest) (lb : ℕ) (bb : BitVec 16) (nb : ℕ) (kb : ActorId) (cb : List ClockNode)
    (hb : Option Digest) : ClockNode :=
  let bitmap := ba ||| bb
  let children := ((List.range 16).filter fun digit => bitmap.getLsbD digit).filterMap fun digit =>
    match _h : childAt ba ca digit, _h' : childAt bb cb digit with
    | some x, some y => some (union (digit :: site) x y)
    | some x, none => some x
    | none, some x => some x
    | none, none => none
  if ba = bitmap ∧ sameChildren P (17 :: site) ca children then branch la ba na ka ca ha
  else if bb = bitmap ∧ sameChildren P (18 :: site) cb children then branch lb bb nb kb cb hb
  else branch la bitmap (sumLen children) ka children none
termination_by (sizeOf (branch la ba na ka ca ha) + sizeOf (branch lb bb nb kb cb hb), 0)
decreasing_by
  have := List.sizeOf_lt_of_mem (mem_of_childAt _h)
  have := List.sizeOf_lt_of_mem (mem_of_childAt _h')
  simp only [branch.sizeOf_spec, Prod.lex_def]
  omega

end

/-! ### Selections -/

mutual

/-- `selected_node`: the entries of the given actors. -/
def selectedNode (site : List ℕ) (actors : BTreeSet ActorId) : ClockNode → Option ClockNode
  | leaf actor seq hash => if actor ∈ actors then some (leaf actor seq hash) else none
  | branch level bitmap n k children hash =>
    match selectedChildren site actors 0 [] none children with
    | none => some (branch level bitmap n k children hash)
    | some [] => none
    | some [only] => some only
    | some (first :: second :: rest) =>
      let children := first :: second :: rest
      some (branch level (children.foldl (fun bits child => bits ||| 1#16 <<< nibble child.key level) 0#16)
        (sumLen children) first.key children none)

/-- The loop of `selected_node`: the children passed so far and, once one of them was not kept as it
is, those to keep. -/
def selectedChildren (site : List ℕ) (actors : BTreeSet ActorId) (index : ℕ) (passed : List ClockNode) :
    Option (List ClockNode) → List ClockNode → Option (List ClockNode)
  | changed, [] => changed
  | changed, child :: rest =>
    let selected := selectedNode (index :: site) actors child
    if changed.isNone && selected.any (P.same (16 :: index :: site) · child) then
      selectedChildren site actors (index + 1) (passed ++ [child]) none rest
    else
      selectedChildren site actors (index + 1) (passed ++ [child])
        (some (changed.getD passed ++ selected.toList)) rest

end

end ClockNode

/-! ## Clocks -/

/-- `ActorClock`, as the trie it is kept in. -/
structure ClockTrie where
  root : Option ClockNode := none

namespace ClockTrie

variable (P : PtrEq) (c : ClockTrie)

/-- `ActorClock::new`. -/
def new : ClockTrie := {}

/-- `ActorClock::entry`. -/
def entry (actor : ActorId) : Option ℕ := c.root.bind (ClockNode.lookup actor)

/-- `ActorClock::get`. -/
def get (actor : ActorId) : ℕ := (c.entry actor).getD 0

/-- `ActorClock::put`: store `seq` for `actor`, or remove it for `none`. -/
def put (actor : ActorId) (seq : Option ℕ) : ClockTrie :=
  if c.entry actor = seq then c else
  match c.root with
  | some root => ⟨ClockNode.setNode actor seq root⟩
  | none => ⟨seq.map (ClockNode.newLeaf actor)⟩

/-- `ActorClock::advance`, with the position it returns. -/
def advance (actor : ActorId) : ℕ × ClockTrie :=
  let next := min (c.get actor + 1) (u64Size - 1)
  (next, c.put actor (some next))

/-- `ActorClock::observe`. -/
def observe (actor : ActorId) (seq : ℕ) : ClockTrie := c.put actor (some (max ((c.entry actor).getD 0) seq))

/-- `ActorClock::set`: lower or raise an actor; zero removes the entry. -/
def set (actor : ActorId) (seq : ℕ) : ClockTrie := c.put actor (if seq ≠ 0 then some seq else none)

/-- `ActorClock::merge`. -/
def merge (other : ClockTrie) : ClockTrie :=
  match c.root, other.root with
  | some own, some theirs => ⟨some (ClockNode.union P [] own theirs)⟩
  | own, theirs => ⟨own.or theirs⟩

/-- `ActorClock::len`. -/
def len : ℕ := (c.root.map ClockNode.len).getD 0

/-- `ActorClock::iter`. -/
def iter : List (ActorId × ℕ) := ClockNode.iterFrom c.root.toList

/-- `ActorClock::intersect`. -/
def intersect (other : ClockTrie) : ClockTrie :=
  let (small, large) := if c.len ≤ other.len then (c, other) else (other, c)
  small.iter.foldl (fun clock e => match large.entry e.1 with
    | some held => clock.put e.1 (some (min e.2 held))
    | none => clock) new

/-- `Arc::ptr_eq` of the roots of two clocks. -/
def sharesRoot (other : ClockTrie) : Bool :=
  match c.root, other.root with
  | some own, some theirs => P.same [] own theirs
  | _, _ => false

/-- `ActorClock::dominates`. -/
def dominates (other : ClockTrie) : Bool :=
  sharesRoot P c other || other.iter.all fun e => decide (e.2 ≤ c.get e.1)

/-- `ActorClock::selected`. -/
def selected (actors : BTreeSet ActorId) : ClockTrie :=
  if c.len ≤ actors.size * 2 then ⟨c.root.bind (ClockNode.selectedNode P [] actors)⟩
  else
    actors.toList.foldl (fun clock actor => match c.entry actor with
      | some seq => clock.put actor (some seq)
      | none => clock) new

/-- `PartialEq for ActorClock`. -/
def eq (other : ClockTrie) : Bool :=
  sharesRoot P c other || (decide (c.len = other.len) && decide (c.iter = other.iter))

/-- `Serialize for ActorClock`: the announced length of the map and its entries. -/
def serialize : ℕ × List (ActorId × ℕ) := (c.len, c.iter)

/-- `Deserialize for ActorClock`, from the map that was read. -/
def deserialize (entries : BTreeMap ActorId ℕ) : ClockTrie :=
  entries.toList.foldl (fun clock e => clock.put e.1 (some e.2)) new

end ClockTrie

/-! ## The same operations on a sorted map -/

namespace ActorClock

/-- One past the position of an actor. -/
def advance (v : ActorClock) (a : ActorId) : ActorClock := v.insert a (min (get v a + 1) (u64Size - 1))

/-- Zero removes the entry. -/
def set (v : ActorClock) (a : ActorId) (seq : ℕ) : ActorClock := if seq ≠ 0 then v.insert a seq else v.erase a

/-- The entries of the given actors. -/
def selected (v : ActorClock) (actors : BTreeSet ActorId) : ActorClock := v.filter fun a _ => actors.contains a

end ActorClock

/-- One operation of a program on several clocks, which are named by numbers. -/
inductive ClockOp
  | new (dst : ℕ)
  | clone (dst src : ℕ)
  | advance (dst : ℕ) (actor : ActorId)
  | observe (dst : ℕ) (actor : ActorId) (seq : ℕ)
  | set (dst : ℕ) (actor : ActorId) (seq : ℕ)
  | merge (dst src : ℕ)
  | intersect (dst own other : ℕ)
  | selected (dst src : ℕ) (actors : BTreeSet ActorId)
  | deserialize (dst : ℕ) (entries : BTreeMap ActorId ℕ)

namespace ClockOp

/-- An operation on tries. -/
def onTries (P : PtrEq) (c : ℕ → ClockTrie) : ClockOp → ℕ → ClockTrie
  | new dst => Function.update c dst ClockTrie.new
  | clone dst src => Function.update c dst (c src)
  | advance dst actor => Function.update c dst ((c dst).advance actor).2
  | observe dst actor seq => Function.update c dst ((c dst).observe actor seq)
  | set dst actor seq => Function.update c dst ((c dst).set actor seq)
  | merge dst src => Function.update c dst ((c dst).merge P (c src))
  | intersect dst own other => Function.update c dst ((c own).intersect (c other))
  | selected dst src actors => Function.update c dst ((c src).selected P actors)
  | deserialize dst entries => Function.update c dst (ClockTrie.deserialize entries)

/-- The same operation on sorted maps. -/
def onMaps (m : ℕ → ActorClock) : ClockOp → ℕ → ActorClock
  | new dst => Function.update m dst ∅
  | clone dst src => Function.update m dst (m src)
  | advance dst actor => Function.update m dst ((m dst).advance actor)
  | observe dst actor seq => Function.update m dst ((m dst).observe actor seq)
  | set dst actor seq => Function.update m dst ((m dst).set actor seq)
  | merge dst src => Function.update m dst ((m dst).merge (m src))
  | intersect dst own other => Function.update m dst ((m own).intersect (m other))
  | selected dst src actors => Function.update m dst ((m src).selected actors)
  | deserialize dst entries => Function.update m dst entries

end ClockOp

end Irokle
