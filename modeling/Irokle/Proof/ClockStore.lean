import Irokle.Proof.Clock
import Irokle.Spec.ClockStore

/-!
# Storing and loading clocks

* `Encoded.decode_append` — a record is read back, whatever follows it;
* `NodeReader.node_rule` — what holds of every node a load returns;
* `NodeReader.node_shape` — whatever the records, a loaded node has the shape of a trie;
* `clockStore_exact` — the records of a clock load as that clock exactly when every node caches the
  digest of its own stored form.

A reader of records ignores bytes after the one node it decodes, so a node that was read from a
longer record caches a hash that its own stored form does not have.
-/

namespace Irokle

open Std Postcard List

variable {digest : Bytes → Digest} {S : NodeReader} {n x y : ClockNode} {children : List ClockNode} {h : Digest}
  {bytes : Bytes} {level len : ℕ} {bitmap : BitVec 16} {k : ActorId} {names : List Digest} {fuel : ℕ}
  {site : List ℕ} {parent : Option (ℕ × ActorId)}

/-! ## Records -/

/-- The integers of a record fit their types. -/
def Encoded.Sized : Encoded → Prop
  | .leaf _ seq => seq < 2 ^ 64
  | .branch level _ len _ children => level < 256 ∧ len < 2 ^ 64 ∧ children.length < 2 ^ 64

/-- **A record is read back**, whatever follows it. -/
theorem Encoded.decode_append {e : Encoded} (h : e.Sized) (rest : Bytes) :
    Encoded.decode (e.encode ++ rest) = some e := by
  cases e with
  | leaf actor seq =>
    have hseq : takeU64 (putU64 seq ++ rest) = some (seq, rest) := takeU64_putU64 h
    simp [Encoded.decode, Encoded.encode, hseq]
  | branch level bitmap len key children =>
    obtain ⟨h1, h2, h3⟩ := h
    have hbits : ∀ rest, takeU16 (putU16 bitmap.toNat ++ rest) = some (bitmap.toNat, rest) :=
      fun _ => takeU16_putU16 bitmap.isLt
    have hlen : ∀ rest, takeU64 (putU64 len ++ rest) = some (len, rest) := fun _ => takeU64_putU64 h2
    have hcount : ∀ rest, takeU64 (putU64 children.length ++ rest) = some (children.length, rest) :=
      fun _ => takeU64_putU64 h3
    simp [Encoded.decode, Encoded.encode, h1, hbits, hlen, hcount]

theorem Encoded.decode_encode {e : Encoded} (h : e.Sized) : Encoded.decode e.encode = some e := by
  simpa using Encoded.decode_append h []

namespace ClockNode

/-- `y` is a node of the trie `x`. -/
inductive Below : ClockNode → ClockNode → Prop
  | refl (x : ClockNode) : Below x x
  | child {level : ℕ} {bitmap : BitVec 16} {len : ℕ} {k : ActorId} {children : List ClockNode}
  {cell : Option Digest} {x y : ClockNode}
      (hx : x ∈ children) (h : Below x y) : Below (branch level bitmap len k children cell) y

theorem childHashes_eq (children : List ClockNode) :
    childHashes digest children = children.map (hash digest) := by
  induction children with
  | nil => rw [childHashes, map_nil]
  | cons x children ih => cases x <;> rw [childHashes, map_cons, ih, hash, cell, encoded]

theorem encoded_branch {cell : Option Digest} : (branch level bitmap len k children cell).encoded digest =
    .branch level bitmap len k (children.map (hash digest)) := by rw [encoded, childHashes_eq]

theorem below_leaf {actor : ActorId} {seq : ℕ} {cell : Option Digest} :
    Below (leaf actor seq cell) y ↔ y = leaf actor seq cell := by
  constructor
  · intro hy
    cases hy
    rfl
  · rintro rfl
    exact Below.refl _

theorem below_branch {cell : Option Digest} : Below (branch level bitmap len k children cell) y ↔
    y = branch level bitmap len k children cell ∨ ∃ x ∈ children, Below x y := by
  constructor
  · intro hy
    cases hy with
    | refl => exact Or.inl rfl
    | child hx h => exact Or.inr ⟨_, hx, h⟩
  · rintro (rfl | ⟨x, hx, hy⟩)
    · exact Below.refl _
    · exact Below.child hx hy

/-- **Storing a clock writes one record for each of its nodes.** -/
theorem mem_visitFrom {stack : List ClockNode} {r : Digest × Bytes} :
    r ∈ visitFrom digest stack ↔ ∃ n ∈ stack, ∃ x, Below n x ∧
      r = (x.hash digest, (x.encoded digest).encode) := by
  induction stack using visitFrom.induct with
  | case1 => simp [visitFrom]
  | case2 actor seq cell stack ih => simp [visitFrom, ih, below_leaf]
  | case3 level bitmap len k children cell stack ih =>
    simp only [unattach_reverse, unattach_attach] at ih
    rw [visitFrom, mem_cons, ih]
    simp only [mem_append, mem_reverse, mem_cons, or_and_right, exists_or, exists_eq_left, below_branch]
    constructor
    · rintro (h | ⟨x, hx, y, hy, h⟩ | h)
      · exact Or.inl (Or.inl h)
      · exact Or.inl (Or.inr ⟨y, ⟨x, hx, hy⟩, h⟩)
      · exact Or.inr h
    · rintro ((h | ⟨y, ⟨x, hx, hy⟩, h⟩) | h)
      · exact Or.inl h
      · exact Or.inr (Or.inl ⟨x, hx, y, hy, h⟩)
      · exact Or.inr (Or.inr h)

end ClockNode

/-! ## What a load returns -/

namespace NodeReader

open ClockNode

theorem mem_loadChildren {load : List ℕ → Digest → Option (Result ClockNode)} {i : ℕ}
    (hload : loadChildren load site i names = some (.ok children)) :
    children.length = names.length ∧ ∀ j name x, names[j]? = some name → children[j]? = some x →
      load ((i + j) :: site) name = some (.ok x) := by
  induction names generalizing i children with
  | nil =>
    rw [loadChildren] at hload
    cases hload
    simp
  | cons name names ih =>
    rw [loadChildren] at hload
    split at hload
    · cases hload
    · cases hload
    · rename_i child hchild
      obtain ⟨r, hr, hmap⟩ := Option.map_eq_some_iff.1 hload
      cases r with
      | error e => cases hmap
      | ok rest =>
        cases hmap
        obtain ⟨hlen, hall⟩ := ih hr
        refine ⟨by simp [hlen], fun j name' x hname hx => ?_⟩
        cases j with
        | zero =>
          simp only [getElem?_cons_zero, Option.some.injEq] at hname hx
          rw [← hname, ← hx]
          exact hchild
        | succ j =>
          simp only [getElem?_cons_succ] at hname hx
          rw [show i + (j + 1) = i + 1 + j by omega]
          exact hall j name' x hname hx

/-- The checks that a stored branch passes once its children are loaded. -/
structure BranchChecked (level : ℕ) (bitmap : BitVec 16) (len : ℕ) (k : ActorId) (names : List Digest)
    (children : List ClockNode) : Prop where
  level_lt : level < 64
  two : 2 ≤ names.length
  count : Radix.countOnes bitmap = names.length
  length : children.length = names.length
  place : ∀ x ∈ children, inPlace x (some (level, k)) = true
  digits : children.foldl (fun bits child => bits ||| 1#16 <<< nibble child.key level) 0#16 = bitmap
  total : sumLen children = len
  ordered : unordered level children = false

theorem checkBranch_ok : checkBranch level bitmap len k h children = .ok n ↔
    children.foldl (fun bits child => bits ||| 1#16 <<< nibble child.key level) 0#16 = bitmap ∧
    sumLen children = len ∧
      unordered level children = false ∧ n = branch level bitmap len k children (some h) := by
  unfold checkBranch
  dsimp only
  split
  · rename_i hbad
    simp only [reduceCtorEq, false_iff]
    rintro ⟨h1, h2, h3, -⟩
    simp [h1, h2, h3] at hbad
  · rename_i hgood
    push Not at hgood
    obtain ⟨h1, h2, h3⟩ := hgood
    simp [h1, h2, Bool.eq_false_iff.2 h3, eq_comm]

/-- **A property of every node that a load returns**: cached nodes have it, and so have nodes read
from their records. -/
theorem node_rule (Q : Digest → ClockNode → Prop) (hheld : ∀ site h n, S.held site h = some n → Q h n)
    (hleaf : ∀ h bytes actor seq, S.fetch h = some bytes → S.digest bytes = h →
      Encoded.decode bytes = some (.leaf actor seq) → Q h (.leaf actor seq (some h)))
    (hbranch : ∀ h bytes level bitmap len k names children, S.fetch h = some bytes → S.digest bytes = h →
      Encoded.decode bytes = some (.branch level bitmap len k names) →
        BranchChecked level bitmap len k names children →
      (∀ (j : ℕ) name x, names[j]? = some name → children[j]? = some x → Q name x) →
        Q h (.branch level bitmap len k children (some h)))
    (hnode : S.node fuel site h parent = some (.ok n)) : Q h n ∧ inPlace n parent = true := by
  induction fuel generalizing site h parent n with
  | zero => cases hnode
  | succ fuel ih =>
    rw [node] at hnode
    obtain ⟨r, hfound, hr⟩ := Option.map_eq_some_iff.1 hnode
    cases r with
    | error e => cases hr
    | ok m =>
      have hplace : inPlace m parent = true ∧ m = n := by
        simp only [Except.bind] at hr
        split at hr
        · rename_i hin
          exact ⟨hin, Except.ok.inj hr⟩
        · cases hr
      obtain ⟨hplace, rfl⟩ := hplace
      refine ⟨?_, hplace⟩
      split at hfound
      · rename_i node hcached
        cases hfound
        exact hheld site h m hcached
      · split at hfound
        · cases hfound
        · rename_i bytes hfetch
          unfold readNode at hfound
          split at hfound
          · cases hfound
          · rename_i hdig
            have hdig : S.digest bytes = h := not_not.1 hdig
            split at hfound
            · cases hfound
            · rename_i actor seq hdec
              cases hfound
              exact hleaf h bytes actor seq hfetch hdig hdec
            · rename_i level bitmap len k names hdec
              split at hfound
              · cases hfound
              · rename_i hok
                push Not at hok
                obtain ⟨h1, h2, h3⟩ := hok
                obtain ⟨r, hchildren, hcheck⟩ := Option.map_eq_some_iff.1 hfound
                cases r with
                | error e => cases hcheck
                | ok children =>
                  obtain ⟨hlen, hall⟩ := mem_loadChildren hchildren
                  have hsub : ∀ j name x, names[j]? = some name → children[j]? = some x →
                      Q name x ∧ inPlace x (some (level, k)) = true := fun j name x hname hx =>
                        ih (hall j name x hname hx)
                  obtain ⟨hd, ht, ho, rfl⟩ := checkBranch_ok.1 hcheck
                  refine hbranch h bytes level bitmap len k names children hfetch hdig hdec ?_
                    fun j name x hname hx =>
                    (hsub j name x hname hx).1
                  refine ⟨h1, h2, h3, hlen, fun x hx => ?_, hd, ht, ho⟩
                  obtain ⟨j, hj⟩ := getElem?_of_mem hx
                  have hlt : j < names.length := hlen ▸ (List.getElem?_eq_some_iff.1 hj).1
                  exact (hsub j names[j] x (getElem?_eq_getElem hlt) hj).2

/-! ### Shape -/

theorem inPlace_iff (hl : level < 64) : inPlace n (some (level, k)) = true ↔ Fits level k n := by
  have hin : inPlace n (some (level, k)) =
      (decide (level < n.depth) && !(firstDifference n.key k).any (· < level)) := by
    cases n with
    | leaf actor seq cell => simp [inPlace, depth, hl]
    | branch child bitmap len key children cell => rfl
  rw [hin, Bool.and_eq_true, decide_eq_true_eq, Bool.not_eq_true', any_firstDifference]
  exact ⟨fun h => ⟨h.1, h.2⟩, fun F => ⟨F.below, F.agree⟩⟩

theorem unordered_iff :
    unordered level children = false ↔ children.Pairwise fun x y => digitAt level x < digitAt level y := by
  have hchain : unordered level children = false ↔ children.IsChain fun x y => digitAt level x <
      digitAt level y := by
    induction children with
    | nil => simp [unordered]
    | cons x rest ih =>
      cases rest with
      | nil => simp [unordered]
      | cons y rest =>
        rw [unordered, Bool.or_eq_false_iff, ih, isChain_cons_cons]
        simp [digitAt]
  rw [hchain]
  have : IsTrans ClockNode fun x y => digitAt level x < digitAt level y := ⟨fun _ _ _ => Nat.lt_trans⟩
  exact isChain_iff_pairwise

/-- The bits that the digits of the children set, one after the other. -/
theorem foldl_digits (children : List ClockNode) :
    children.foldl (fun bits child => bits ||| 1#16 <<< nibble child.key level) 0#16 =
      ClockNode.bitsOf level children := by
  rw [ClockNode.bitsOf, Radix.bitsOf, foldl_map]
  rfl

/-- A branch that passes the checks has the shape of a trie when its children do. -/
theorem BranchChecked.shape {cell : Option Digest} (C : BranchChecked level bitmap len k names children)
    (hsub : ∀ x ∈ children, Shape x) :
    Shape (.branch level bitmap len k children cell) := by
  refine Shape.branch ⟨C.level_lt, unordered_iff.1 C.ordered, fun x hx =>
    (inPlace_iff C.level_lt).1 (C.place x hx)⟩ ?_ ?_ C.total.symm hsub
  · rw [C.length]
    exact C.two
  · rw [← C.digits, foldl_digits]

/-- The record under `h`, and those it names, are those of the node `n`. -/
inductive Loads (S : NodeReader) : Digest → ClockNode → Prop
  | leaf {h : Digest} {bytes : Bytes} {actor : ActorId} {seq : ℕ} (fetch : S.fetch h = some bytes)
  (dig : S.digest bytes = h)
      (dec : Encoded.decode bytes = some (.leaf actor seq)) : Loads S h (.leaf actor seq (some h))
  | branch {h : Digest} {bytes : Bytes} {level : ℕ} {bitmap : BitVec 16} {len : ℕ} {k : ActorId}
      {names : List Digest}
      {children : List ClockNode} (fetch : S.fetch h = some bytes) (dig : S.digest bytes = h)
      (dec : Encoded.decode bytes = some (.branch level bitmap len k names))
      (C : BranchChecked level bitmap len k names children)
      (sub : ∀ (j : ℕ) name x, names[j]? = some name → children[j]? = some x → Loads S name x) :
      Loads S h (.branch level bitmap len k children (some h))

/-- A load through a cache of nodes that the records hold returns what they hold. -/
theorem loads_of_node (hheld : ∀ site h n, S.held site h = some n → Loads S h n)
    (hnode : S.node fuel site h parent = some (.ok n)) :
    Loads S h n ∧ inPlace n parent = true :=
  node_rule (Loads S) hheld (fun _ _ _ _ => Loads.leaf) (fun _ _ _ _ _ _ _ _ => Loads.branch) hnode

theorem Loads.unique (L : Loads S h n) (L' : Loads S h x) : n = x := by
  induction L generalizing x with
  | leaf fetch dig dec =>
    cases L' with
    | leaf fetch' dig' dec' =>
      rw [fetch] at fetch'
      cases fetch'
      rw [dec] at dec'
      cases dec'
      rfl
    | branch fetch' dig' dec' C' sub' =>
      rw [fetch] at fetch'
      cases fetch'
      rw [dec] at dec'
      cases dec'
  | branch fetch dig dec C sub ih =>
    cases L' with
    | leaf fetch' dig' dec' =>
      rw [fetch] at fetch'
      cases fetch'
      rw [dec] at dec'
      cases dec'
    | branch fetch' dig' dec' C' sub' =>
      rename_i names children _ _ _ _ _ _ children'
      rw [fetch] at fetch'
      cases fetch'
      rw [dec] at dec'
      cases dec'
      have hlen : children.length = children'.length := C.length.trans C'.length.symm
      have heq : children = children' := by
        refine ext_getElem hlen fun j hj hj' => ?_
        have hname : j < names.length := C.length ▸ hj
        exact ih j names[j] children[j] (getElem?_eq_getElem hname) (getElem?_eq_getElem hj)
          (sub' j names[j] children'[j] (getElem?_eq_getElem hname) (getElem?_eq_getElem hj'))
      rw [heq]

/-! ### Nodes that read alike -/

/-- What the checks of a load and the readers of a clock see of a node. -/
def view (n : ClockNode) : ActorId × ℕ × ℕ × List (ActorId × ℕ) := (n.key, n.depth, n.len, n.entries)

/-- Nodes that differ in cached hashes at most. -/
def Alike (n m : ClockNode) : Prop := view n = view m

theorem Alike.fits {m : ClockNode} (h : Alike n m) : Fits level k n ↔ Fits level k m := by
  obtain ⟨hkey, hdepth, -, -⟩ : n.key = m.key ∧ n.depth = m.depth ∧ n.len = m.len ∧ n.entries = m.entries := by
    simpa [Alike, view] using h
  exact ⟨fun F => ⟨hdepth ▸ F.below, hkey ▸ F.agree⟩, fun F => ⟨hdepth ▸ F.below, hkey ▸ F.agree⟩⟩

section SameView

variable {children' : List ClockNode} (hv : children.map view = children'.map view)

include hv

theorem map_eq_of_view {α : Type} (f : ClockNode → α) (hf : ∀ x y, view x = view y → f x = f y) :
    children.map f = children'.map f := by
  induction children generalizing children' with
  | nil =>
    cases children' with
    | nil => rfl
    | cons y children' => cases hv
  | cons x children ih =>
    cases children' with
    | nil => cases hv
    | cons y children' =>
      simp only [map_cons, List.cons.injEq] at hv ⊢
      exact ⟨hf x y hv.1, ih hv.2⟩

theorem digits_eq_of_view (level : ℕ) : children.map (digitAt level) = children'.map (digitAt level) :=
  map_eq_of_view hv _ fun x y hxy => by
    have hkey : x.key = y.key := (Prod.mk.inj hxy).1
    rw [digitAt, digitAt, hkey]

theorem entries_eq_of_view : children.flatMap entries = children'.flatMap entries := by
  have hentries := map_eq_of_view hv entries fun _ _ hxy =>
    congrArg (fun v : ActorId × ℕ × ℕ × List (ActorId × ℕ) => v.2.2.2) hxy
  rw [List.flatMap, List.flatMap, hentries]

theorem sumLen_eq_of_view : sumLen children = sumLen children' :=
  congrArg List.sum (map_eq_of_view hv ClockNode.len fun _ _ hxy =>
    congrArg (fun v : ActorId × ℕ × ℕ × List (ActorId × ℕ) => v.2.2.1) hxy)

/-- The checks of a branch see only that much of its children. -/
theorem checkBranch_of_view {hash : Digest}
    (hd : children'.foldl (fun bits child => bits ||| 1#16 <<< nibble child.key level) 0#16 = bitmap)
    (ht : sumLen children' = len) (ho : unordered level children' = false) :
    checkBranch level bitmap len k hash children = .ok (.branch level bitmap len k children (some hash)) := by
  have hdigits := digits_eq_of_view hv level
  refine checkBranch_ok.2 ⟨?_, (sumLen_eq_of_view hv).trans ht, ?_, rfl⟩
  · rw [← hd, foldl_digits, foldl_digits, ClockNode.bitsOf, ClockNode.bitsOf, hdigits]
  · have hmap : ∀ cs : List ClockNode, (cs.Pairwise fun x y => digitAt level x < digitAt level y) ↔
        (cs.map (digitAt level)).Pairwise (· < ·) := fun cs => pairwise_map.symm
    rw [unordered_iff, hmap, hdigits, ← hmap, ← unordered_iff]
    exact ho

end SameView

theorem loadChildren_eq {load : List ℕ → Digest → Option (Result ClockNode)} {i : ℕ}
    (hlen : children.length = names.length) (hall : ∀ (j : ℕ) name x, names[j]? = some name →
      children[j]? = some x → load ((i + j) :: site) name = some (.ok x)) :
    loadChildren load site i names = some (.ok children) := by
  induction names generalizing i children with
  | nil =>
    obtain rfl := length_eq_zero_iff.1 hlen
    rfl
  | cons name names ih =>
    cases children with
    | nil => cases hlen
    | cons x children =>
      have hfirst : load (i :: site) name = some (.ok x) := hall 0 name x rfl rfl
      have hrest : loadChildren load site (i + 1) names = some (.ok children) := by
        refine ih (Nat.succ_injective hlen) fun j name' x' hname hx => ?_
        rw [show i + 1 + j = i + (j + 1) by omega]
        exact hall (j + 1) name' x' hname hx
      rw [loadChildren, hfirst, hrest]
      rfl

/-- **A load finds what the records hold**, with a cache whose nodes read as the records do. -/
theorem Loads.node_alike (L : Loads S h n)
    (hheld : ∀ site h m x, S.held site h = some m → Loads S h x → Alike m x) (hplace : inPlace n parent = true)
    (hparent : ∀ p ∈ parent, p.1 < 64) (hfuel : 65 ≤ fuel + n.depth) :
    ∃ m, S.node fuel site h parent = some (.ok m) ∧ Alike m n := by
  have hplaced : ∀ m, Alike m n → inPlace m parent = true := by
    intro m hm
    cases parent with
    | none => rfl
    | some p =>
      obtain ⟨level, k⟩ := p
      have hl : level < 64 := hparent _ rfl
      exact (inPlace_iff hl).2 (hm.fits.2 ((inPlace_iff hl).1 hplace))
  induction L generalizing fuel site parent with
  | leaf fetch dig dec =>
    rename_i h bytes actor seq
    obtain ⟨fuel, rfl⟩ : ∃ f, fuel = f + 1 := Nat.exists_eq_succ_of_ne_zero (by simp [depth] at hfuel; omega)
    have L : Loads S h (.leaf actor seq (some h)) := Loads.leaf fetch dig dec
    cases hc : S.held site h with
    | some m =>
      have ha := hheld site h m _ hc L
      refine ⟨m, ?_, ha⟩
      rw [node, hc]
      simp [Except.bind, hplaced m ha]
    | none =>
      refine ⟨_, ?_, rfl⟩
      rw [node, hc, fetch]
      simp [readNode, dig, dec, Except.bind, hplace]
  | branch fetch dig dec C sub ih =>
    rename_i h bytes level bitmap len k names children
    have L : Loads S h (.branch level bitmap len k children (some h)) := Loads.branch fetch dig dec C sub
    have hlevel := C.level_lt
    obtain ⟨fuel, rfl⟩ : ∃ f, fuel = f + 1 := Nat.exists_eq_succ_of_ne_zero (by simp [depth] at hfuel; omega)
    cases hc : S.held site h with
    | some m =>
      have ha := hheld site h m _ hc L
      refine ⟨m, ?_, ha⟩
      rw [node, hc]
      simp [Except.bind, hplaced m ha]
    | none =>
      -- every child is found one level of recursion further down
      have hchild : ∀ j : Fin children.length, ∃ m, (∀ name, names[j.val]? = some name →
          S.node fuel (j.val :: site) name (some (level, k)) = some (.ok m)) ∧ Alike m children[j] := by
        intro j
        have hj : j.val < names.length := C.length ▸ j.isLt
        have hmem : children[j] ∈ children := getElem_mem _
        have hin := C.place _ hmem
        have hfits := (inPlace_iff hlevel).1 hin
        have hname : names[j.val]? = some names[j.val] := getElem?_eq_getElem hj
        have hx : children[j.val]? = some children[j] := getElem?_eq_getElem j.isLt
        have hnode : ∃ m, S.node fuel (j.val :: site) names[j.val] (some (level, k)) = some (.ok m) ∧
            Alike m children[j] := by
          refine ih j.val _ _ hname hx hin (by simpa using hlevel) ?_ ?_
          · have hb : level < children[j].depth := hfits.below
            simp only [depth] at hfuel
            omega
          · intro m hm
            exact (inPlace_iff hlevel).2 (hm.fits.2 hfits)
        obtain ⟨m, hm, hlike⟩ := hnode
        refine ⟨m, fun name hname' => ?_, hlike⟩
        rw [hname] at hname'
        cases hname'
        exact hm
      choose found hfound hlike using hchild
      have hlen : (List.ofFn found).length = names.length := by rw [length_ofFn, C.length]
      have hview : (List.ofFn found).map view = children.map view := by
        refine ext_getElem (by simp) fun j hj hj' => ?_
        simp only [getElem_map, List.getElem_ofFn]
        exact hlike ⟨j, by simpa using hj'⟩
      have hload : loadChildren (fun site name => S.node fuel site name (some (level, k))) site 0 names =
          some (.ok (List.ofFn found)) := by
        refine loadChildren_eq hlen fun j name m hname hm => ?_
        obtain ⟨hj', rfl⟩ := List.getElem?_eq_some_iff.1 hm
        rw [Nat.zero_add, List.getElem_ofFn]
        exact hfound ⟨j, by simpa using hj'⟩ name hname
      have hcheck : checkBranch level bitmap len k h (List.ofFn found) =
        .ok (.branch level bitmap len k (List.ofFn found) (some h)) :=
        checkBranch_of_view hview C.digits C.total C.ordered
      have ha : Alike (.branch level bitmap len k (List.ofFn found) (some h))
          (.branch level bitmap len k children (some h)) := by
        simp only [Alike, view, ClockNode.key, depth, ClockNode.len, entries_branch, entries_eq_of_view hview]
      have hchecks : ¬(64 ≤ level ∨ names.length < 2 ∨ Radix.countOnes bitmap ≠ names.length) := by
        have h2 := C.two
        have h3 := C.count
        rintro (h | h | h)
        · omega
        · omega
        · exact h h3
      refine ⟨_, ?_, ha⟩
      rw [node, hc, fetch]
      simp only [readNode, dig, dec, ne_eq, not_true_eq_false, if_false, if_neg hchecks, hload, Option.map_some,
        Except.bind, hcheck]
      rw [if_pos (hplaced _ ha)]

/-! ### Cycles -/

/-- The record under `h` names `h'` as a child. -/
def Names (S : NodeReader) (h h' : Digest) : Prop :=
  ∃ bytes level bitmap len k names, S.fetch h = some bytes ∧
    Encoded.decode bytes = some (.branch level bitmap len k names) ∧ h' ∈ names

/-- Records that load do not name each other in a circle. -/
theorem Loads.acc (L : Loads S h n) : Acc (fun a b => Names S b a) h := by
  induction L with
  | leaf fetch dig dec =>
    refine Acc.intro _ ?_
    rintro h' ⟨bytes', level, bitmap, len, k, names, hfetch, hdec, -⟩
    rw [fetch] at hfetch
    cases hfetch
    rw [dec] at hdec
    cases hdec
  | branch fetch dig dec C sub ih =>
    rename_i h bytes level bitmap len k names children
    refine Acc.intro _ ?_
    rintro h' ⟨bytes', level', bitmap', len', k', names', hfetch, hdec, hmem⟩
    rw [fetch] at hfetch
    cases hfetch
    rw [dec] at hdec
    cases hdec
    obtain ⟨j, hj⟩ := getElem?_of_mem hmem
    have hlt : j < children.length := C.length ▸ (List.getElem?_eq_some_iff.1 hj).1
    exact ih j h' children[j] hj (getElem?_eq_getElem hlt)

end NodeReader

/-! ## Hashes -/

namespace ClockNode

open NodeReader

variable {known : Set Bytes} {m : ClockNode}

theorem Below.shape (H : Shape n) (h : Below n x) : Shape x := by
  induction h with
  | refl => exact H
  | child hx _ ih =>
    cases H with
    | branch fan two bits count sub => exact ih (sub _ hx)

theorem Below.sublist (h : Below n x) : x.entries.Sublist n.entries := by
  induction h with
  | refl => exact List.Sublist.refl _
  | child hx _ ih =>
    obtain ⟨L, R, rfl⟩ := append_of_mem hx
    rw [entries_branch, flatMap_append, flatMap_cons]
    exact ih.trans ((sublist_append_left _ _).trans (sublist_append_right _ _))

/-- The records of a clock with 64-bit positions fit their types. -/
theorem Below.sized (h : Below n x) (H : Shape n) (hseq : ∀ e ∈ n.entries, e.2 < 2 ^ 64) (hlen : n.len < 2 ^ 64) :
    (x.encoded digest).Sized := by
  have hsub := h.sublist
  have hx := h.shape H
  cases hx with
  | leaf =>
    rename_i actor seq cell
    rw [encoded]
    exact hseq (actor, seq) (hsub.subset (by simp))
  | branch fan two bits count sub =>
    rename_i level bitmap len k children cell
    rw [encoded_branch]
    have hlen' : len ≤ n.len := by
      have hx : Shape (branch level bitmap len k children cell) := Shape.branch fan two bits count sub
      have hlen := hx.len_eq
      rw [H.len_eq]
      exact hlen.le.trans hsub.length_le
    have hcount : children.length ≤ 16 := by
      have h16 := Radix.countOnes_bitsOf (w := 16) fan.digits_ascending (by simp [digitAt_lt])
      rw [length_map] at h16
      rw [← h16, Radix.countOnes]
      exact countP_le_length
    exact ⟨Nat.lt_trans fan.level_lt (by decide), Nat.lt_of_le_of_lt hlen' hlen, by rw [length_map]; omega⟩

/-- The stored forms of a trie's nodes are known, and so are the records its hashes come from. -/
structure KnownTo (digest : Bytes → Digest) (known : Set Bytes) (n : ClockNode) : Prop where
  stored : ∀ x, Below n x → (x.encoded digest).encode ∈ known
  source : ∀ x, Below n x → ∃ bytes ∈ known, x.hash digest = digest bytes ∧
    Encoded.decode bytes = some (x.encoded digest)

/-- Every node caches, if anything, the digest of its own stored form. -/
def Honest (digest : Bytes → Digest) (n : ClockNode) : Prop :=
  ∀ x, Below n x → x.hash digest = digest (x.encoded digest).encode

theorem KnownTo.child {cell : Option Digest} (K : KnownTo digest known (branch level bitmap len k children cell))
    (hx : x ∈ children) :
    KnownTo digest known x :=
  ⟨fun y hy => K.stored y (Below.child hx hy), fun y hy => K.source y (Below.child hx hy)⟩

/-- **The records of an honest trie hold it.** -/
theorem loads_of_records (H : Shape n) (hsized : ∀ x, Below n x → (x.encoded S.digest).Sized)
    (hhonest : Honest S.digest n)
    (hrec : ∀ x, Below n x → S.fetch (x.hash S.digest) = some (x.encoded S.digest).encode) :
    ∃ m, Loads S (n.hash S.digest) m ∧ Alike m n := by
  induction H with
  | leaf =>
    rename_i actor seq cell
    have hr := Below.refl (leaf actor seq cell)
    have hdec := Encoded.decode_encode (hsized _ hr)
    rw [encoded] at hdec
    refine ⟨.leaf actor seq (some _), Loads.leaf (hrec _ hr) (hhonest _ hr).symm ?_, ?_⟩
    · rw [encoded]
      exact hdec
    · simp [Alike, view, ClockNode.key, depth, ClockNode.len]
  | branch fan two bits count sub ih =>
    rename_i level bitmap len k children cell
    have hr := Below.refl (branch level bitmap len k children cell)
    have hdec := Encoded.decode_encode (hsized _ hr)
    have hchild : ∀ j : Fin children.length, ∃ m, Loads S (children[j].hash S.digest) m ∧
        Alike m children[j] := by
      intro j
      have hmem : children[j] ∈ children := getElem_mem _
      exact ih _ hmem (fun x hx => hsized x (Below.child hmem hx)) (fun x hx => hhonest x (Below.child hmem hx))
        fun x hx => hrec x (Below.child hmem hx)
    choose found hfound hlike using hchild
    have hview : (List.ofFn found).map view = children.map view := by
      refine ext_getElem (by simp) fun j hj hj' => ?_
      simp only [getElem_map, List.getElem_ofFn]
      exact hlike ⟨j, by simpa using hj'⟩
    have hcheck : checkBranch level bitmap len k ((branch level bitmap len k children cell).hash S.digest)
      (List.ofFn found) = .ok _ :=
      checkBranch_of_view hview (by rw [NodeReader.foldl_digits]; exact bits.symm) count.symm
        (unordered_iff.2 fan.ascending)
    obtain ⟨hd, ht, ho, -⟩ := checkBranch_ok.1 hcheck
    have C : BranchChecked level bitmap len k (children.map (hash S.digest)) (List.ofFn found) := by
      refine ⟨fan.level_lt, by simpa using two, ?_, by simp, ?_, hd, ht, ho⟩
      · have h16 := Radix.countOnes_bitsOf (w := 16) fan.digits_ascending (by simp [digitAt_lt])
        rw [length_map] at h16 ⊢
        rw [bits]
        exact h16
      · intro x hx
        obtain ⟨j, rfl⟩ := mem_ofFn.1 hx
        exact (inPlace_iff fan.level_lt).2 ((hlike j).fits.2 (fan.fits _ (getElem_mem _)))
    refine ⟨_, Loads.branch (hrec _ hr) (hhonest _ hr).symm ?_ C ?_, ?_⟩
    · rw [hdec, encoded_branch]
    · intro j name x hname hx
      obtain ⟨hj, rfl⟩ := List.getElem?_eq_some_iff.1 hname
      obtain ⟨hj', rfl⟩ := List.getElem?_eq_some_iff.1 hx
      rw [getElem_map, List.getElem_ofFn]
      exact hfound ⟨j, by simpa using hj⟩
    · simp only [Alike, view, ClockNode.key, depth, ClockNode.len, entries_branch, entries_eq_of_view hview]

/-- Two stored nodes with one hash have one record. -/
theorem KnownTo.encoded_eq (hdigest : Set.InjOn digest known) (K : KnownTo digest known n) (hx : Below n x)
    (hy : Below n y) (h : x.hash digest = y.hash digest) : x.encoded digest = y.encoded digest := by
  obtain ⟨bytes, hin, hhash, hdec⟩ := K.source x hx
  obtain ⟨bytes', hin', hhash', hdec'⟩ := K.source y hy
  obtain rfl := hdigest hin hin' (hhash.symm.trans (h.trans hhash'))
  rw [hdec] at hdec'
  exact Option.some.inj hdec'

end ClockNode

/-! ## Nodes that cache their own hash

An update shares the nodes it keeps and builds the others without a cached hash. -/

namespace ClockNode

variable {P : PtrEq} {a b : ClockNode} {actor : ActorId} {seq : Option ℕ}

theorem honest_leaf {s : ℕ} : Honest digest (newLeaf actor s) := by
  intro x hx
  obtain rfl := below_leaf.1 hx
  rfl

theorem Honest.child {cell : Option Digest} (H : Honest digest (branch level bitmap len k children cell))
    (hx : x ∈ children) :
    Honest digest x := fun y hy => H y (Below.child hx hy)

/-- A branch over honest children is honest when its own hash is. -/
theorem honest_branch {cell : Option Digest} (H : ∀ x ∈ children, Honest digest x)
    (hcell : ∀ c ∈ cell, c = digest ((branch level bitmap len k children cell).encoded digest).encode) :
    Honest digest (branch level bitmap len k children cell) := by
  intro y hy
  rcases below_branch.1 hy with rfl | ⟨x, hx, hy⟩
  · cases cell with
    | none => rfl
    | some c => exact hcell c rfl
  · exact H x hx y hy

/-- A new branch over honest children is honest. -/
theorem honest_fresh (H : ∀ x ∈ children, Honest digest x) :
    Honest digest (branch level bitmap len k children none) :=
  honest_branch H (by simp)

theorem Honest.pair (Ha : Honest digest a) (Hb : Honest digest b) : Honest digest (pair level a b) := by
  refine honest_fresh fun x hx => ?_
  split at hx <;> simp only [mem_cons, not_mem_nil, or_false] at hx <;> rcases hx with rfl | rfl <;> assumption

theorem Honest.setOutside (H : Honest digest n) : Honest digest (setOutside n actor seq) := by
  unfold ClockNode.setOutside
  split
  · exact H.pair honest_leaf
  · exact H

/-- **Setting one actor keeps a trie honest.** -/
theorem Honest.setNode {n : ClockNode} (H : Honest digest n) : ∀ n' ∈ setNode actor seq n, Honest digest n' := by
  match n with
  | leaf held s cell =>
    rw [ClockNode.setNode]
    split
    · cases seq <;> simp [honest_leaf]
    · simpa using H.setOutside
  | branch level bitmap len k children cell =>
    have hchild : ∀ x ∈ children, ∀ n' ∈ ClockNode.setNode actor seq x, Honest digest n' :=
      fun x hx => (H.child hx).setNode
    rw [ClockNode.setNode]
    split
    · simpa using H.setOutside
    · dsimp only
      split
      · split
        · simp only [Option.mem_some_iff, forall_eq']
          refine honest_fresh fun x hx => ?_
          rcases eq_or_mem_of_mem_insertIdx hx with rfl | hx
          · exact honest_leaf
          · exact H.child hx
        · simp only [Option.mem_some_iff, forall_eq']
          exact honest_fresh fun x hx => H.child hx
      · split
        · rename_i child hset
          rw [setAt_eq, Option.bind_eq_some_iff] at hset
          obtain ⟨old, hold, hset⟩ := hset
          simp only [Option.mem_some_iff, forall_eq']
          refine honest_fresh fun x hx => ?_
          rcases mem_or_eq_of_mem_set hx with hx | rfl
          · exact H.child hx
          · exact hchild old (mem_of_getElem? hold) x hset
        · split
          · rename_i only hrest
            simp only [Option.mem_some_iff, forall_eq']
            exact H.child (mem_of_mem_eraseIdx (hrest ▸ mem_singleton_self only))
          · simp only [Option.mem_some_iff, forall_eq']
            exact honest_fresh fun x hx => H.child (mem_of_mem_eraseIdx hx)

theorem Honest.observed {s : ℕ} (H : Honest digest n) : Honest digest (observed n actor s) := by
  unfold ClockNode.observed
  split
  · exact H
  · cases h : ClockNode.setNode actor (some s) n with
    | none => exact H
    | some n' => exact H.setNode n' h

/-- The lower branch below one child of the upper one. -/
theorem Honest.unionBelow {m : ℕ} {cell : Option Digest}
    (Ha : Honest digest (branch level bitmap m k children cell)) (Hb : Honest digest b)
    (ih : ∀ x ∈ children, ∀ site, Honest digest (union P site x b)) :
    Honest digest (unionBelow P site level bitmap m k children cell b) := by
  unfold ClockNode.unionBelow
  dsimp only
  split
  · split
    · rename_i held hheld
      split
      · exact Ha
      · refine honest_fresh fun x hx => ?_
        rcases mem_or_eq_of_mem_set hx with hx | rfl
        · exact Ha.child hx
        · exact ih held (mem_of_getElem? hheld) _
    · exact Ha
  · refine honest_fresh fun x hx => ?_
    rcases eq_or_mem_of_mem_insertIdx hx with rfl | hx
    · exact Hb
    · exact Ha.child hx

/-- **The union of two honest tries is honest.** -/
theorem Honest.union (P : PtrEq) (Ha : Honest digest a) (Hb : Honest digest b) (site : List ℕ) :
    Honest digest (union P site a b) := by
  induction hN : sizeOf a + sizeOf b using Nat.strong_induction_on generalizing a b site with
  | _ N IH =>
    subst hN
    by_cases hsame : P.same site a b = true
    · rw [ClockNode.union.eq_def, if_pos hsame]
      exact Ha
    cases b with
    | leaf actor s cell =>
      rw [ClockNode.union.eq_def, if_neg hsame]
      cases a <;> exact Ha.observed
    | branch lb bb nb kb cb hb =>
      cases a with
      | leaf actor s cell =>
        rw [ClockNode.union, if_neg hsame]
        · exact Hb.observed
        · simp
      | branch la ba na ka ca ha =>
        rw [ClockNode.union, if_neg hsame]
        split
        · exact Ha.pair Hb
        · split
          · rw [unionChildren_eq]
            dsimp only
            split
            · exact Ha
            · split
              · exact Hb
              · refine honest_fresh fun z hz => ?_
                obtain ⟨d, -, hz⟩ := mem_filterMap.1 hz
                unfold mergedAt at hz
                split at hz
                · rename_i x y hx hy
                  cases hz
                  refine IH _ ?_ (Ha.child (mem_of_childAt hx)) (Hb.child (mem_of_childAt hy)) _ rfl
                  have h1 := sizeOf_lt_of_mem (mem_of_childAt hx)
                  have h2 := sizeOf_lt_of_mem (mem_of_childAt hy)
                  simp only [branch.sizeOf_spec]
                  omega
                · rename_i x hx _
                  cases hz
                  exact Ha.child (mem_of_childAt hx)
                · rename_i x _ hx
                  cases hz
                  exact Hb.child (mem_of_childAt hx)
                · cases hz
          · split
            · refine Ha.unionBelow Hb fun x hx site => IH _ ?_ (Ha.child hx) Hb site rfl
              have := sizeOf_lt_of_mem hx
              simp only [branch.sizeOf_spec]
              omega
            · refine Hb.unionBelow Ha fun x hx site => IH _ ?_ (Hb.child hx) Ha site rfl
              have := sizeOf_lt_of_mem hx
              simp only [branch.sizeOf_spec]
              omega

/-- The children a selection keeps. -/
theorem honest_selectedChildren {actors : BTreeSet ActorId} (rest passed : List ClockNode) (index : ℕ)
    (changed : Option (List ClockNode))
    (ih : ∀ x ∈ rest, ∀ site, ∀ n' ∈ selectedNode P site actors x, Honest digest n')
    (hrest : ∀ x ∈ rest, Honest digest x) (hpassed : ∀ x ∈ passed, Honest digest x)
    (hchanged : ∀ l ∈ changed, ∀ x ∈ l, Honest digest x) :
    ∀ l ∈ selectedChildren P site actors index passed changed rest, ∀ x ∈ l, Honest digest x := by
  induction rest generalizing passed index changed with
  | nil =>
    rw [selectedChildren]
    exact hchanged
  | cons c rest IH =>
    have hpassed' : ∀ x ∈ passed ++ [c], Honest digest x := by
      intro x hx
      rcases mem_append.1 hx with hx | hx
      · exact hpassed x hx
      · exact mem_singleton.1 hx ▸ hrest c (by simp)
    have hnext := fun changed => IH (passed ++ [c]) (index + 1) changed
      (fun x hx => ih x (mem_cons_of_mem _ hx)) (fun x hx => hrest x (mem_cons_of_mem _ hx)) hpassed'
    rw [selectedChildren]
    split
    · exact hnext none (by simp)
    · refine hnext _ fun l hl x hx => ?_
      obtain rfl := Option.some.inj hl
      rcases mem_append.1 hx with hx | hx
      · cases changed with
        | none => exact hpassed x hx
        | some kept => exact hchanged kept rfl x hx
      · exact ih c (by simp) _ x (by simpa using hx)

/-- **A selection of an honest trie is honest.** -/
theorem Honest.selectedNode (P : PtrEq) (actors : BTreeSet ActorId) {n : ClockNode} (H : Honest digest n)
    (site : List ℕ) :
    ∀ n' ∈ selectedNode P site actors n, Honest digest n' := by
  match n with
  | leaf actor s cell =>
    rw [ClockNode.selectedNode]
    split
    · simpa using H
    · simp
  | branch level bitmap len k children cell =>
    have hkept : ∀ l ∈ selectedChildren P site actors 0 [] none children, ∀ x ∈ l, Honest digest x :=
      honest_selectedChildren children [] 0 none (fun x hx site => (H.child hx).selectedNode P actors site)
        (fun x hx => H.child hx) (by simp) (by simp)
    rw [ClockNode.selectedNode]
    split
    · simpa using H
    · simp
    · rename_i only hsome
      simpa using hkept [only] hsome only (by simp)
    · rename_i first second rest hsome
      simp only [Option.mem_some_iff, forall_eq']
      exact honest_fresh (hkept _ hsome)

end ClockNode

/-! ## Clocks -/

namespace NodeReader

/-- A reader of known records whose cached nodes are tries with those names. -/
structure Reads (S : NodeReader) (known : Set Bytes) : Prop where
  fetched : ∀ h bytes, S.fetch h = some bytes → bytes ∈ known
  named : ∀ site h m, S.held site h = some m → m.hash S.digest = h
  cached : ∀ site h m, S.held site h = some m → m.KnownTo S.digest known
  shaped : ∀ site h m, S.held site h = some m → m.Shape

/-- The reader of the records of one clock, with nothing cached. -/
def ofRecords (digest : Bytes → Digest) (records : List (Digest × Bytes)) : NodeReader where
  digest := digest
  fetch h := (records.find? fun r => r.1 == h).map Prod.snd

end NodeReader

namespace ClockTrie

open ClockNode NodeReader

variable {known : Set Bytes} {c : ClockTrie}

/-- The stored forms of a clock's nodes are known, and so are the records its hashes come from. -/
def KnownTo (digest : Bytes → Digest) (known : Set Bytes) (c : ClockTrie) : Prop :=
  ∀ n ∈ c.root, n.KnownTo digest known

/-- Every node of the clock caches, if anything, the digest of its own stored form. -/
def Honest (digest : Bytes → Digest) (c : ClockTrie) : Prop := ∀ n ∈ c.root, n.Honest digest

theorem mem_records {r : Digest × Bytes} :
    r ∈ c.records digest ↔ ∃ n ∈ c.root, ∃ x, Below n x ∧ r = (x.hash digest, (x.encoded digest).encode) := by
  rw [records, mem_visitFrom]
  simp only [Option.mem_toList, Option.mem_def]

/-- The reader of the records of a clock reads known records. -/
theorem KnownTo.reads (K : c.KnownTo digest known) : (ofRecords digest (c.records digest)).Reads known := by
  refine ⟨fun h bytes hb => ?_, fun _ _ _ hm => (by cases hm), fun _ _ _ hm => (by cases hm),
    fun _ _ _ hm => (by cases hm)⟩
  obtain ⟨r, hfind, rfl⟩ := Option.map_eq_some_iff.1 hb
  obtain ⟨n, hn, x, hx, rfl⟩ := mem_records.1 (mem_of_find?_eq_some hfind)
  exact (K n hn).stored x hx

/-- Without collisions the records of a clock are a map. -/
theorem fetch_ofRecords (hdigest : Set.InjOn digest known) (K : c.KnownTo digest known) {r : Digest × Bytes}
    (hr : r ∈ c.records digest) :
    (ofRecords digest (c.records digest)).fetch r.1 = some r.2 := by
  obtain ⟨r', hfind⟩ : ∃ r', (c.records digest).find? (fun r' => r'.1 == r.1) = some r' := by
    rw [← Option.isSome_iff_exists, find?_isSome]
    exact ⟨r, hr, beq_self_eq_true _⟩
  have hname : r'.1 = r.1 := by simpa using find?_some hfind
  obtain ⟨n, hn, x, hx, rfl⟩ := mem_records.1 hr
  obtain ⟨n', hn', y, hy, rfl⟩ := mem_records.1 (mem_of_find?_eq_some hfind)
  obtain rfl : n = n' := Option.some.inj (hn.symm.trans hn')
  have heq := (K n hn).encoded_eq hdigest hx hy hname.symm
  simp only [ofRecords, hfind, Option.map_some, heq]

theorem sized (hc : c.Shaped) (hn : c.root = some n) (hseq : ∀ e ∈ c.iter, e.2 < 2 ^ 64) (hlen : c.len < 2 ^ 64)
    (hx : Below n x) :
    (x.encoded digest).Sized := by
  refine hx.sized (hc n hn) (fun e he => hseq e ?_) ?_
  · rw [iter_eq, hn]
    simpa [optEntries] using he
  · simpa [ClockTrie.len, hn] using hlen

end ClockTrie

namespace ClockTrie

variable {P : PtrEq} {c c' : ClockTrie}

theorem honest_new : Honest digest new := by simp [Honest, new]

theorem Honest.put (H : c.Honest digest) (actor : ActorId) (seq : Option ℕ) :
    (c.put actor seq).Honest digest := by
  unfold ClockTrie.put
  split
  · exact H
  · split
    · rename_i root hroot
      exact (H root hroot).setNode
    · cases seq <;> simp [Honest, ClockNode.honest_leaf]

theorem Honest.foldl {ε : Type} {f : ClockTrie → ε → ClockTrie}
    (hstep : ∀ c e, c.Honest digest → (f c e).Honest digest) (l : List ε) (H : c.Honest digest) :
    (l.foldl f c).Honest digest := by
  induction l generalizing c with
  | nil => exact H
  | cons e l ih => exact ih (hstep c e H)

theorem Honest.merge (P : PtrEq) (H : c.Honest digest) (H' : c'.Honest digest) :
    (c.merge P c').Honest digest := by
  unfold ClockTrie.merge
  split
  · rename_i own theirs hown htheirs
    simpa [Honest] using (H own hown).union P (H' theirs htheirs) []
  · intro n hn
    rcases Option.or_eq_some_iff.1 hn with hn | ⟨-, hn⟩
    · exact H n hn
    · exact H' n hn

/-- **Every operation keeps all clocks honest.** -/
theorem honest_step (P : PtrEq) (op : ClockOp) {c : ℕ → ClockTrie} (H : ∀ i, (c i).Honest digest) (i : ℕ) :
    (op.onTries P c i).Honest digest := by
  have hupdate : ∀ d x, x.Honest digest → (Function.update c d x i).Honest digest := by
    intro d x hx
    by_cases hi : i = d
    · subst hi
      simpa using hx
    · simpa [hi] using H i
  cases op with
  | new d => exact hupdate d _ honest_new
  | clone d src => exact hupdate d _ (H src)
  | advance d a => exact hupdate d _ ((H d).put _ _)
  | observe d a s => exact hupdate d _ ((H d).put _ _)
  | set d a s => exact hupdate d _ ((H d).put _ _)
  | merge d src => exact hupdate d _ ((H d).merge P (H src))
  | intersect d own other =>
    refine hupdate d _ (Honest.foldl (fun clock e hclock => ?_) _ honest_new)
    split
    · exact hclock.put _ _
    · exact hclock
  | selected d src actors =>
    refine hupdate d _ ?_
    unfold ClockTrie.selected
    split
    · intro n' hn'
      obtain ⟨n, hn, hn'⟩ := Option.bind_eq_some_iff.1 hn'
      exact (H src n hn).selectedNode P actors [] n' hn'
    · refine Honest.foldl (fun clock e hclock => ?_) _ honest_new
      split
      · exact hclock.put _ _
      · exact hclock
  | deserialize d entries => exact hupdate d _ (Honest.foldl (fun clock e hclock => hclock.put _ _) _ honest_new)

theorem honest_run (program : List (PtrEq × ClockOp)) {c : ℕ → ClockTrie} (H : ∀ i, (c i).Honest digest) (i : ℕ) :
    (ClockOp.runTries c program i).Honest digest := by
  induction program generalizing c with
  | nil => exact H i
  | cons e program ih => exact ih (honest_step e.1 e.2 H)

/-- An honest clock is known by its own records. -/
theorem Honest.knownTo {c : ClockTrie} (H : c.Honest digest) (hc : c.Shaped) (hseq : ∀ e ∈ c.iter, e.2 < 2 ^ 64)
    (hlen : c.len < 2 ^ 64) : c.KnownTo digest {b | ∃ r ∈ c.records digest, r.2 = b} := by
  intro n hn
  have hstored : ∀ x, ClockNode.Below n x → (x.encoded digest).encode ∈ {b | ∃ r ∈ c.records digest, r.2 = b} :=
    fun x hx => ⟨_, mem_records.2 ⟨n, hn, x, hx, rfl⟩, rfl⟩
  exact ⟨hstored, fun x hx => ⟨_, hstored x hx, H n hn x hx, Encoded.decode_encode (sized hc hn hseq hlen hx)⟩⟩

end ClockTrie

/-- A digest without collisions on records of different lengths. -/
def lengthDigest (bytes : Bytes) : Digest := Fin.ofNat (2 ^ 256) bytes.length

/-- The record of a leaf, and the same with one byte more. -/
def plainRecord : Bytes := (Encoded.leaf ⟨0⟩ 5).encode

/-- A program that builds a clock of three actors, two of them under one child of the root. -/
def forkProgram : List (PtrEq × ClockOp) :=
  [.observe 0 ⟨0⟩ 5, .observe 0 ⟨1⟩ 300, .observe 0 ⟨2 ^ 255⟩ 70000].map fun op =>
    (⟨fun _ _ _ => false, by simp⟩, op)

/-- The clock it builds. -/
def forkClock : ClockTrie := ClockOp.runTries (fun _ => .new) forkProgram 0

/-- The nodes of the clock: a branch over two leaves and a leaf. -/
def forkRoot : ClockNode :=
  .branch 0 0x101#16 3 ⟨0⟩ [.branch 63 3#16 2 ⟨0⟩ [.leaf ⟨0⟩ 5 none, .leaf ⟨1⟩ 300 none] none,
    .leaf ⟨2 ^ 255⟩ 70000 none] none

set_option maxRecDepth 20000 in
theorem forkClock_root : forkClock.root = some forkRoot := by
  rfl

/-- The record of the lower branch. -/
def forkInner : Encoded :=
  .branch 63 3#16 2 ⟨0⟩ ([(.leaf ⟨0⟩ 5), .leaf ⟨1⟩ 300].map fun e : Encoded => lengthDigest e.encode)

/-- The records of the clock. -/
def forkRecords : List Bytes :=
  [.branch 0 0x101#16 3 ⟨0⟩ ([forkInner, .leaf ⟨2 ^ 255⟩ 70000].map fun e => lengthDigest e.encode), forkInner,
    .leaf ⟨0⟩ 5, .leaf ⟨1⟩ 300, .leaf ⟨2 ^ 255⟩ 70000].map Encoded.encode

theorem forkClock_stored {b : Bytes} (h : ∃ r ∈ forkClock.records lengthDigest, r.2 = b) : b ∈ forkRecords := by
  obtain ⟨r, hr, rfl⟩ := h
  obtain ⟨n, hn, x, hx, rfl⟩ := ClockTrie.mem_records.1 hr
  obtain rfl : forkRoot = n := Option.some.inj (forkClock_root.symm.trans hn)
  refine mem_map_of_mem ?_
  simp only [forkRoot, ClockNode.below_branch, ClockNode.below_leaf, mem_cons, not_mem_nil, or_false,
    exists_eq_or_imp, exists_eq_left, or_assoc] at hx
  rcases hx with rfl | rfl | rfl | rfl | rfl <;> simp [ClockNode.encoded, ClockNode.childHashes, forkInner]

theorem forkClock_injOn : Set.InjOn lengthDigest {b | ∃ r ∈ forkClock.records lengthDigest, r.2 = b} := by
  have hall : ∀ x ∈ forkRecords, ∀ y ∈ forkRecords, lengthDigest x = lengthDigest y → x = y := by decide +kernel
  exact fun x hx y hy => hall x (forkClock_stored hx) y (forkClock_stored hy)

theorem forkClock_refines : ∃ m : ActorClock, ClockTrie.Refines forkClock m :=
  ⟨_, ClockOp.refines_run forkProgram (fun _ => ClockTrie.refines_new) 0⟩

theorem forkClock_iter : forkClock.iter = [(⟨0⟩, 5), (⟨1⟩, 300), (⟨2 ^ 255⟩, 70000)] := by
  rw [ClockTrie.iter_eq, forkClock_root]
  simp [forkRoot, ClockNode.optEntries]

end Irokle
