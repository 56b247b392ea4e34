import Irokle.Spec.Clock

/-!
# The shape of a clock trie

* `firstDifference_some` — where two actors first differ;
* `ClockNode.Shape` — a branch has at least two children, placed by their nibble at its level
  under a common prefix;
* `ClockNode.Shape.ascending`, `ClockNode.Shape.lookup_iff` — the entries are in actor order, and a
  lookup finds exactly them;
* `ClockNode.setNode_spec` — setting or removing one actor.
-/

namespace Irokle

open Std List

variable {a b c k : ActorId} {level i j : ℕ}

/-! ## Nibbles -/

theorem byte_lt (a : ActorId) (i : ℕ) : a.byte i < 256 := Nat.mod_lt _ (by decide)

theorem nibble_lt (a : ActorId) (level : ℕ) : nibble a level < 16 := by
  have h := byte_lt a (level / 2)
  unfold nibble
  dsimp only
  split
  · rw [Nat.shiftRight_eq_div_pow]
    omega
  · exact Nat.lt_of_le_of_lt Nat.and_le_right (by decide)

/-- The nibbles of an actor are its digits in base 16. -/
theorem nibble_eq (h : level < 64) : nibble a level = Radix.digit 16 64 a.bytes.val level := by
  have hpow : ∀ e, (256 : ℕ) ^ e = 16 ^ (2 * e) := fun e => by rw [pow_mul]; rfl
  unfold nibble IdType.byte Radix.digit Radix.lead
  generalize (a.bytes.val : ℕ) = n
  dsimp only
  split
  · have he : 64 - (level + 1) = 2 * (32 - (level / 2 + 1)) + 1 := by omega
    rw [Nat.shiftRight_eq_div_pow, hpow, he, pow_succ _ (2 * _), ← Nat.div_div_eq_div_mul]
    exact Nat.mod_mul_right_div_self _ 16 16
  · have he : 64 - (level + 1) = 2 * (32 - (level / 2 + 1)) := by omega
    rw [show (0x0f : ℕ) = 2 ^ 4 - 1 from rfl, Nat.and_two_pow_sub_one_eq_mod, hpow, he]
    exact Nat.mod_mod_of_dvd _ (by decide)

/-- Two actors share their first `k` nibbles. -/
def SamePath (a b : ActorId) (k : ℕ) : Prop := ∀ i < k, nibble a i = nibble b i

theorem SamePath.refl (a : ActorId) (k : ℕ) : SamePath a a k := fun _ _ => rfl

theorem SamePath.symm (h : SamePath a b i) : SamePath b a i := fun j hj => (h j hj).symm

theorem SamePath.trans (h : SamePath a b i) (h' : SamePath b c i) :
    SamePath a c i := fun j hj => (h j hj).trans (h' j hj)

theorem SamePath.mono (h : SamePath a b i) (hj : j ≤ i) :
    SamePath a b j := fun l hl => h l (Nat.lt_of_lt_of_le hl hj)

theorem samePath_succ : SamePath a b (i + 1) ↔ SamePath a b i ∧ nibble a i = nibble b i := by
  constructor
  · intro h
    exact ⟨h.mono (Nat.le_succ i), h i (Nat.lt_succ_self i)⟩
  · rintro ⟨h, hi⟩ j hj
    rcases Nat.lt_succ_iff_lt_or_eq.1 hj with hj | rfl
    · exact h j hj
    · exact hi

/-- An actor is determined by its nibbles. -/
theorem SamePath.eq (h : SamePath a b 64) : a = b := by
  refine IdType.bytes_injective (Fin.ext ?_)
  refine Radix.eq_of_digit_eq (b := 16) (w := 64) a.bytes.isLt b.bytes.isLt fun i hi => ?_
  rw [← nibble_eq hi, ← nibble_eq hi]
  exact h i hi

/-- The first nibble where two actors differ orders them. -/
theorem SamePath.lt (h : SamePath a b level) (hl : level < 64) (hlt : nibble a level < nibble b level) :
    a < b := by
  refine Radix.digit_lt_lt (b := 16) (w := 64) a.bytes.isLt b.bytes.isLt hl (fun j hj => ?_) ?_
  · rw [← nibble_eq (Nat.lt_trans hj hl), ← nibble_eq (Nat.lt_trans hj hl)]
    exact h j hj
  · rwa [← nibble_eq hl, ← nibble_eq hl]

/-- Equal bytes have equal nibbles. -/
theorem nibble_congr (h : a.byte (level / 2) = b.byte (level / 2)) : nibble a level = nibble b level := by
  unfold nibble
  rw [h]

/-- **Where two actors first differ.** -/
theorem firstDifference_some (h : firstDifference a b = some level) :
    level < 64 ∧ SamePath a b level ∧ nibble a level ≠ nibble b level := by
  obtain ⟨byte, hfind, hlevel⟩ := Option.map_eq_some_iff.1 h
  obtain ⟨hne, hbyte, hbefore⟩ := find?_range_eq_some.1 hfind
  have hlt : byte < 32 := mem_range.1 hbyte
  have hsame : ∀ j < byte, a.byte j = b.byte j := by simpa using hbefore
  have hne' : a.byte byte ≠ b.byte byte := by simpa using hne
  have hagree : SamePath a b (byte * 2) := fun i hi => nibble_congr (hsame _ (by omega))
  have hdiv : byte * 2 / 2 = byte := by omega
  have hdiv' : (byte * 2 + 1) / 2 = byte := by omega
  have hhigh : (a.byte byte ^^^ b.byte byte) >>> 4 = 0 ↔ a.byte byte >>> 4 = b.byte byte >>> 4 := by
    rw [Nat.shiftRight_xor_distrib, Nat.xor_eq_zero_iff]
  have heven : ∀ x : ActorId, nibble x (byte * 2) = x.byte byte >>> 4 := by
    intro x
    simp [nibble, hdiv]
  have hodd : ∀ x : ActorId, nibble x (byte * 2 + 1) = x.byte byte &&& 0x0f := by
    intro x
    simp [nibble, hdiv']
  dsimp only at hlevel
  split at hlevel
  · -- the high nibbles are equal, so the low ones differ
    rename_i hz
    subst hlevel
    refine ⟨by omega, samePath_succ.2 ⟨hagree, ?_⟩, ?_⟩
    · rw [heven, heven, hhigh.1 hz]
    · intro hlow
      rw [hodd, hodd, show (0x0f : ℕ) = 2 ^ 4 - 1 from rfl, Nat.and_two_pow_sub_one_eq_mod,
        Nat.and_two_pow_sub_one_eq_mod] at hlow
      have hz' := hhigh.1 hz
      rw [Nat.shiftRight_eq_div_pow, Nat.shiftRight_eq_div_pow] at hz'
      omega
  · rename_i hz
    subst hlevel
    refine ⟨by omega, hagree, ?_⟩
    rw [Nat.add_zero, heven, heven]
    exact fun h => hz (hhigh.2 h)

theorem firstDifference_none (h : firstDifference a b = none) : a = b := by
  have hsame : ∀ i < 32, a.byte i = b.byte i := by
    simpa [firstDifference, find?_eq_none] using h
  refine SamePath.eq fun i hi => nibble_congr (hsame _ (by omega))

/-- The test of a prefix. -/
theorem any_firstDifference : (firstDifference a b).any (· < level) = false ↔ SamePath a b level := by
  cases h : firstDifference a b with
  | none =>
    obtain rfl := firstDifference_none h
    simp [SamePath.refl]
  | some d =>
    obtain ⟨-, hagree, hne⟩ := firstDifference_some h
    simp only [Option.any_some, decide_eq_false_iff_not, Nat.not_lt]
    constructor
    · intro hle
      exact hagree.mono hle
    · intro h'
      by_contra hlt
      exact hne (h' d (Nat.not_le.1 hlt))

/-! ## Shape -/

namespace ClockNode

variable {n n' x y : ClockNode} {children L R : List ClockNode} {old new : Option ClockNode} {bitmap : BitVec 16}
  {m d : ℕ} {hash : Option Digest} {e : ActorId × ℕ} {actor : ActorId} {seq : Option ℕ} {s : ℕ}

/-- The nibbles before `level` are shared by all entries of a node; a leaf has one entry. -/
def depth : ClockNode → ℕ
  | leaf _ _ _ => 64
  | branch level _ _ _ _ _ => level

/-- The nibble that places a node below a branch at `level`. -/
def digitAt (level : ℕ) (n : ClockNode) : ℕ := nibble n.key level

/-- A node may stand below a branch at `level` with the prefix of `k`. -/
structure Fits (level : ℕ) (k : ActorId) (n : ClockNode) : Prop where
  below : level < n.depth
  agree : SamePath n.key k level

/-- Children in the order of their nibbles. -/
structure Fan (level : ℕ) (k : ActorId) (children : List ClockNode) : Prop where
  level_lt : level < 64
  ascending : children.Pairwise fun x y => digitAt level x < digitAt level y
  fits : ∀ x ∈ children, Fits level k x

/-- The bitmap of the nibbles of the children. -/
def bitsOf (level : ℕ) (children : List ClockNode) : BitVec 16 := Radix.bitsOf 16 (children.map (digitAt level))

/-- **The shape of a trie.** -/
inductive Shape : ClockNode → Prop
  | leaf {actor : ActorId} {s : ℕ} {hash : Option Digest} : Shape (leaf actor s hash)
  | branch {level : ℕ} {bitmap : BitVec 16} {m : ℕ} {k : ActorId} {children : List ClockNode}
  {hash : Option Digest}
      (fan : Fan level k children) (two : 2 ≤ children.length) (bits : bitmap = bitsOf level children)
      (count : m = sumLen children) (sub : ∀ x ∈ children, Shape x) :
      Shape (branch level bitmap m k children hash)

theorem digitAt_lt (level : ℕ) (n : ClockNode) : digitAt level n < 16 := nibble_lt _ _

/-! ### The entries of a node -/

theorem iterFrom_append (l l' : List ClockNode) : iterFrom (l ++ l') = iterFrom l ++ iterFrom l' := by
  induction l using iterFrom.induct with
  | case1 => simp [iterFrom]
  | case2 actor seq hash stack ih => simp [iterFrom, ih]
  | case3 level bitmap m k children hash stack ih => simpa [iterFrom] using ih

/-- The entries of a node, in order. -/
def entries (n : ClockNode) : List (ActorId × ℕ) := iterFrom [n]

theorem iterFrom_eq (l : List ClockNode) : iterFrom l = l.flatMap entries := by
  induction l with
  | nil => simp [iterFrom]
  | cons n l ih => rw [← singleton_append, iterFrom_append, ih]; rfl

@[simp] theorem entries_leaf : entries (leaf actor s hash) = [(actor, s)] := by simp [entries, iterFrom]

@[simp] theorem entries_branch : entries (branch level bitmap m k children hash) = children.flatMap entries := by
  rw [← iterFrom_eq, entries]
  simp [iterFrom]

/-- The entries of a node share the nibbles of its key before its level. -/
theorem Shape.agree (S : Shape n) (he : e ∈ n.entries) : SamePath e.1 n.key n.depth := by
  induction S with
  | leaf =>
    simp only [entries_leaf, mem_singleton] at he
    rw [he]
    exact SamePath.refl _ _
  | branch fan two bits count sub ih =>
    simp only [entries_branch, mem_flatMap] at he
    obtain ⟨x, hx, hex⟩ := he
    have F := fan.fits x hx
    exact ((ih x hx hex).mono F.below.le).trans F.agree

/-- An entry below a child has the child's nibble. -/
theorem Shape.nibble_eq (S : Shape x) (hl : level < x.depth) (he : e ∈ x.entries) :
    nibble e.1 level = digitAt level x :=
  S.agree he level hl

theorem Shape.len_eq (S : Shape n) : n.len = n.entries.length := by
  induction S with
  | leaf => simp [ClockNode.len]
  | branch fan two bits count sub ih =>
    subst count
    simp only [ClockNode.len, sumLen, entries_branch, length_flatMap]
    exact congrArg List.sum (map_congr_left ih)

/-- **The entries are in actor order.** -/
theorem Shape.ascending (S : Shape n) : n.entries.Pairwise fun e e' => e.1 < e'.1 := by
  induction S with
  | leaf => simp
  | branch fan two bits count sub ih =>
    rename_i level bitmap m k children hash
    rw [entries_branch, pairwise_flatMap]
    refine ⟨ih, fan.ascending.imp_of_mem ?_⟩
    intro x y hx hy hlt e he e' he'
    have Fx := fan.fits x hx
    have Fy := fan.fits y hy
    -- both share the prefix of the branch, and the nibble at its level tells them apart
    have hagree : SamePath e.1 e'.1 level :=
      (((sub x hx).agree he).mono Fx.below.le).trans
        (Fx.agree.trans ((((sub y hy).agree he').mono Fy.below.le).trans Fy.agree).symm)
    refine hagree.lt fan.level_lt ?_
    rw [(sub x hx).nibble_eq Fx.below he, (sub y hy).nibble_eq Fy.below he']
    exact hlt

/-- An actor has one entry. -/
theorem Shape.unique (S : Shape n) {t : ℕ} (h : (actor, s) ∈ n.entries) (h' : (actor, t) ∈ n.entries) :
    s = t := by
  have hnodup : (n.entries.map Prod.fst).Nodup := by
    rw [List.Nodup, pairwise_map]
    exact S.ascending.imp fun h => h.ne
  have hinj := inj_on_of_nodup_map hnodup h h' rfl
  exact congrArg Prod.snd hinj

/-! ### Slots -/

namespace Fan

variable (F : Fan level k children)

include F

theorem digits_ascending : (children.map (digitAt level)).Pairwise (· < ·) := pairwise_map.2 F.ascending

omit F in
theorem getLsbD_iff (hd : d < 16) :
    (bitsOf level children).getLsbD d = true ↔ ∃ x ∈ children, digitAt level x = d := by
  rw [bitsOf, Radix.getLsbD_bitsOf hd]
  simp

/-- The slot of a digit is its rank among the children. -/
theorem slot_eq (hd : d < 16) :
    slot (bitsOf level children) d = children.countP fun x => digitAt level x < d := by
  have hmask : ∀ d < 16, ∀ i < 16, (1#16 <<< d - 1#16).getLsbD i = decide (i < d) := by decide
  rw [slot, bitsOf, Radix.countOnes_below_bitsOf F.digits_ascending (by simp [digitAt_lt])
    (hmask d hd), countP_map]
  rfl

/-- A digit cuts the children at its slot, and its bit says whether there is a child at it. -/
theorem split (hd : d < 16) : ∃ L old R, Radix.Cut (digitAt level) d children L old R ∧
    slot (bitsOf level children) d = L.length ∧ (bitsOf level children).getLsbD d = old.isSome := by
  obtain ⟨L, old, R, C⟩ := Radix.exists_cut F.ascending d
  refine ⟨L, old, R, C, (F.slot_eq hd).trans C.countP_eq, ?_⟩
  rw [Bool.eq_iff_iff, getLsbD_iff hd, Option.isSome_iff_exists]
  exact exists_congr fun x => C.mem_iff

/-- The child of a digit. -/
theorem childAt_iff (hd : d < 16) :
    childAt (bitsOf level children) children d = some x ↔ x ∈ children ∧ digitAt level x = d := by
  obtain ⟨L, old, R, C, hslot, hbit⟩ := F.split hd
  rw [C.mem_iff, childAt, hslot, hbit, C.eq]
  cases old <;> simp

/-- Another child may stand at a digit, or none. -/
theorem put (C : Radix.Cut (digitAt level) d children L old R)
    (hnew : ∀ x ∈ new, Fits level k x ∧ digitAt level x = d) :
    Fan level k (L ++ (new.toList ++ R)) where
  level_lt := F.level_lt
  ascending := C.ascending F.ascending fun x hx => (hnew x hx).2
  fits x hx := (Radix.mem_put.1 hx).elim (fun h => F.fits x (C.mem h)) fun h => (hnew x h).1

omit F in
theorem sublist {children' : List ClockNode} (F : Fan level k children) (h : children'.Sublist children) :
    Fan level k children' :=
  ⟨F.level_lt, F.ascending.sublist h, fun x hx => F.fits x (h.subset hx)⟩

/-- Any key with the prefix of the branch names it. -/
theorem rekey {k' : ActorId} (h : SamePath k k' level) : Fan level k' children :=
  ⟨F.level_lt, F.ascending, fun x hx => ⟨(F.fits x hx).below, (F.fits x hx).agree.trans h⟩⟩

/-- A branch that is built again from its children. -/
theorem rebranch (two : 2 ≤ children.length) (bits : bitmap = bitsOf level children)
    (sub : ∀ x ∈ children, Shape x) :
    Shape (rebranch level bitmap k children) ∧
    SamePath (ClockNode.rebranch level bitmap k children).key k level := by
  obtain ⟨x, rest, rfl⟩ : ∃ x rest, children = x :: rest := by
    cases children with
    | nil => simp at two
    | cons x rest => exact ⟨x, rest, rfl⟩
  have hx := (F.fits x (by simp)).agree
  exact ⟨Shape.branch (F.rekey hx.symm) two bits rfl sub, hx⟩

end Fan

/-! ### Lookups -/

theorem lookupAt_eq (children : List ClockNode) (index : ℕ) :
    lookupAt actor children index = children[index]?.bind (lookup actor) := by
  induction children generalizing index with
  | nil => simp [lookupAt]
  | cons x children ih =>
    cases index with
    | zero => simp [lookupAt]
    | succ index => simpa [lookupAt] using ih index

theorem lookup_branch : lookup actor (branch level bitmap m k children hash) =
    (childAt bitmap children (nibble actor level)).bind (lookup actor) := by
  rw [lookup, lookupAt_eq, childAt]
  split <;> rfl

/-- **A lookup finds exactly the entries.** -/
theorem Shape.lookup_iff (S : Shape n) : lookup actor n = some s ↔ (actor, s) ∈ n.entries := by
  induction S with
  | leaf =>
    rename_i held t hash
    simp only [lookup, entries_leaf, mem_singleton, Prod.mk.injEq]
    split
    · rename_i h
      simp [h, eq_comm]
    · rename_i h
      simp [eq_comm (a := actor), h]
  | branch fan two bits count sub ih =>
    rename_i level bitmap m k children hash
    subst bits
    rw [lookup_branch, entries_branch, mem_flatMap, Option.bind_eq_some_iff]
    constructor
    · rintro ⟨x, hx, hs⟩
      have hmem := ((fan.childAt_iff (nibble_lt _ _)).1 hx).1
      exact ⟨x, hmem, (ih x hmem).1 hs⟩
    · rintro ⟨x, hx, hs⟩
      refine ⟨x, (fan.childAt_iff (nibble_lt _ _)).2 ⟨hx, ?_⟩, (ih x hx).2 hs⟩
      exact ((sub x hx).nibble_eq (fan.fits x hx).below hs).symm

/-! ### Setting one actor -/

/-- The entries below an optional node. -/
def optEntries (r : Option ClockNode) : List (ActorId × ℕ) := r.toList.flatMap entries

@[simp] theorem optEntries_none : optEntries none = [] := rfl

@[simp] theorem optEntries_some : optEntries (some n) = n.entries := by simp [optEntries]

/-- Two subtrees whose keys first differ at `d`. -/
theorem Shape.pair (Sx : Shape x) (Sy : Shape y) (hd : firstDifference x.key y.key = some d) (hx : d < x.depth)
    (hy : d < y.depth) : Shape (pair d x y) := by
  obtain ⟨hlt, hagree, hne⟩ := firstDifference_some hd
  have Fx : Fits d x.key x := ⟨hx, SamePath.refl _ _⟩
  have Fy : Fits d x.key y := ⟨hy, hagree.symm⟩
  have hbits : ∀ children : List ClockNode, (∀ z, z ∈ children ↔ z = x ∨ z = y) →
      1#16 <<< digitAt d x ||| 1#16 <<< digitAt d y = bitsOf d children := by
    intro children hmem
    refine Radix.eq_bitsOf fun i hi => ?_
    rw [BitVec.getLsbD_or, Radix.getLsbD_one_shiftLeft hi, Radix.getLsbD_one_shiftLeft hi, ← Bool.decide_or]
    refine decide_eq_decide.2 ?_
    simp only [mem_map, hmem]
    constructor
    · rintro (h | h)
      · exact ⟨x, Or.inl rfl, h.symm⟩
      · exact ⟨y, Or.inr rfl, h.symm⟩
    · rintro ⟨z, rfl | rfl, h⟩
      · exact Or.inl h.symm
      · exact Or.inr h.symm
  unfold ClockNode.pair
  dsimp only
  split
  · rename_i hlt'
    refine Shape.branch ⟨hlt, ?_, ?_⟩ (by simp) (hbits _ (by simp)) (by simp [sumLen]) ?_
    · simpa [digitAt] using hlt'
    · simp [Fx, Fy]
    · simp [Sx, Sy]
  · rename_i hlt'
    have hlt'' : nibble y.key d < nibble x.key d := Nat.lt_of_le_of_ne (Nat.not_lt.1 hlt') hne.symm
    refine Shape.branch ⟨hlt, ?_, ?_⟩ (by simp) (hbits _ (by simp [or_comm])) (by simp [sumLen, Nat.add_comm]) ?_
    · simpa [digitAt] using hlt''
    · simp [Fx, Fy]
    · simp [Sx, Sy]

@[simp] theorem mem_entries_pair : e ∈ (pair d x y).entries ↔ e ∈ x.entries ∨ e ∈ y.entries := by
  unfold pair
  dsimp only
  split <;> simp [or_comm]

@[simp] theorem key_pair : (pair d x y).key = x.key := rfl

@[simp] theorem depth_pair : (pair d x y).depth = d := rfl

/-- What `set_node` leaves of a node. The prefix shared with the actor is kept, so the result may
stand where the node stood. -/
structure Sets (n : ClockNode) (actor : ActorId) (seq : Option ℕ) (r : Option ClockNode) : Prop where
  shape : ∀ n' ∈ r, Shape n'
  under : ∀ n' ∈ r, ∀ i ≤ n.depth, SamePath actor n.key i → i ≤ n'.depth ∧ SamePath n'.key n.key i
  entries : ∀ e, e ∈ optEntries r ↔ e.1 ≠ actor ∧ e ∈ n.entries ∨ e.1 = actor ∧ seq = some e.2

/-- An actor that does not share the prefix of a node. -/
theorem setOutside_spec (S : Shape n) (hd : firstDifference n.key actor = some d) (hlt : d < n.depth) :
    Sets n actor seq (some (setOutside n actor seq)) := by
  obtain ⟨h64, hagree, hne⟩ := firstDifference_some hd
  have hout : ∀ e ∈ n.entries, e.1 ≠ actor := by
    rintro e he rfl
    exact hne (S.agree he d hlt).symm
  cases seq with
  | none =>
    refine ⟨?_, ?_, ?_⟩
    · simpa [setOutside] using S
    · simp only [setOutside, Option.mem_some_iff, forall_eq']
      exact fun i hi _ => ⟨hi, SamePath.refl _ _⟩
    · intro e
      simp only [setOutside, optEntries_some, reduceCtorEq, and_false, or_false]
      exact ⟨fun h => ⟨hout e h, h⟩, fun h => h.2⟩
  | some s =>
    have heq : setOutside n actor (some s) = pair d n (newLeaf actor s) := by simp [setOutside, hd]
    have hle : ∀ i, SamePath actor n.key i → i ≤ d := by
      intro i hi
      by_contra hgt
      exact hne (hi d (Nat.not_le.1 hgt)).symm
    rw [heq]
    refine ⟨?_, ?_, ?_⟩
    · simp only [Option.mem_some_iff, forall_eq']
      exact S.pair Shape.leaf hd hlt h64
    · simp only [Option.mem_some_iff, forall_eq', depth_pair, key_pair]
      exact fun i _ hi => ⟨hle i hi, SamePath.refl _ _⟩
    · rintro ⟨b, t⟩
      simp only [optEntries_some, mem_entries_pair, newLeaf, entries_leaf, mem_singleton, Prod.mk.injEq,
        Option.some.injEq]
      constructor
      · rintro (h | ⟨rfl, rfl⟩)
        · exact Or.inl ⟨hout _ h, h⟩
        · exact Or.inr ⟨rfl, rfl⟩
      · rintro (h | ⟨rfl, rfl⟩)
        · exact Or.inl h.2
        · exact Or.inr ⟨rfl, rfl⟩

theorem setAt_eq (children : List ClockNode) (index : ℕ) :
    setAt actor seq children index = children[index]?.bind (setNode actor seq) := by
  induction children generalizing index with
  | nil => simp [setAt]
  | cons x children ih =>
    cases index with
    | zero => simp [setAt]
    | succ index => simpa [setAt] using ih index

/-- The child that takes an actor's place keeps its nibble. -/
theorem Sets.fits {r : Option ClockNode} (h : Sets x actor seq r) (hx : Fits level k x)
    (hk : SamePath actor k level) (hd : digitAt level x = nibble actor level) (hn : n ∈ r) :
    Fits level k n ∧ digitAt level n = nibble actor level := by
  obtain ⟨hdepth, hagree⟩ := h.under n hn (level + 1) hx.below (samePath_succ.2 ⟨hk.trans hx.agree.symm, hd.symm⟩)
  exact ⟨⟨hdepth, (hagree.mono (Nat.le_succ _)).trans hx.agree⟩, (hagree level (Nat.lt_succ_self _)).trans hd⟩

section Branch

variable (F : Fan level k children) (sub : ∀ x ∈ children, Shape x)
  (C : Radix.Cut (digitAt level) (nibble actor level) children L old R)
  (hnew : ∀ e, e ∈ optEntries new ↔ e.1 ≠ actor ∧ e ∈ optEntries old ∨ e.1 = actor ∧ seq = some e.2)

include F sub C hnew

/-- The children beside the one of the actor hold other actors. -/
theorem Fan.entries_put (e : ActorId × ℕ) : e ∈ (L ++ (new.toList ++ R)).flatMap entries ↔
    e.1 ≠ actor ∧ e ∈ children.flatMap entries ∨ e.1 = actor ∧ seq = some e.2 := by
  have hout : e ∈ (L ++ R).flatMap entries → e.1 ≠ actor := by
    rintro he rfl
    obtain ⟨x, hx, he⟩ := mem_flatMap.1 he
    exact C.ne hx ((sub x (C.mem hx)).nibble_eq (F.fits x (C.mem hx)).below he).symm
  have hnew := hnew e
  rw [C.eq]
  simp only [optEntries, flatMap_append, mem_append] at hout hnew ⊢
  tauto

/-- A branch with another child at the digit of the actor. -/
theorem Fan.sets {bitmap' : BitVec 16} (hfits : ∀ x ∈ new, Fits level k x ∧ digitAt level x = nibble actor level)
    (hshape : ∀ x ∈ new, Shape x) (two : 2 ≤ (L ++ (new.toList ++ R)).length)
    (bits : bitmap' = bitsOf level (L ++ (new.toList ++ R))) :
    Sets (branch level bitmap m k children hash) actor seq
      (some (ClockNode.rebranch level bitmap' k (L ++ (new.toList ++ R)))) := by
  obtain ⟨hs, hkey⟩ := (F.put C hfits).rebranch two bits fun x hx =>
    (Radix.mem_put.1 hx).elim (fun h => sub x (C.mem h)) (hshape x)
  refine ⟨by simpa using hs, ?_, fun e => ?_⟩
  · simp only [Option.mem_some_iff, forall_eq']
    exact fun i hi _ => ⟨hi, hkey.mono hi⟩
  · rw [optEntries_some, entries_branch]
    exact (congrArg (e ∈ ·) entries_branch).to_iff.trans (F.entries_put sub C hnew e)

end Branch

/-- `set_node` below a branch that holds the prefix of the actor. -/
theorem setNode_inside (F : Fan level k children) (two : 2 ≤ children.length) (sub : ∀ x ∈ children, Shape x)
    (hk : SamePath k actor level) (ih : ∀ x ∈ children, Sets x actor seq (setNode actor seq x)) :
    Sets (branch level (bitsOf level children) m k children hash) actor seq
      (setNode actor seq (branch level (bitsOf level children) m k children hash)) := by
  rw [setNode, if_neg (Bool.eq_false_iff.1 (any_firstDifference.2 hk))]
  obtain ⟨L, old, R, C, hslot, hbit⟩ := F.split (nibble_lt actor level)
  have hcut := C.eq
  subst hcut
  dsimp only
  rw [hslot, hbit]
  cases old with
  | none =>
    -- the actor gets a child of its own
    have hnew : ∀ e, e ∈ optEntries (seq.map (newLeaf actor)) ↔ e.1 ≠ actor ∧ e ∈ optEntries none ∨ e.1 = actor ∧
        seq = some e.2 := by
      rintro ⟨b, t⟩
      cases seq <;> simp [newLeaf, eq_comm]
    have hfits : ∀ x ∈ seq.map (newLeaf actor), Fits level k x ∧ digitAt level x = nibble actor level := by
      cases seq with
      | none => simp
      | some s => simpa using ⟨⟨F.level_lt, hk.symm⟩, rfl⟩
    have hshape : ∀ x ∈ seq.map (newLeaf actor), Shape x := by cases seq <;> simp [newLeaf, Shape.leaf]
    cases seq with
    | none => exact F.sets sub C hnew hfits hshape two rfl
    | some s =>
      simp only [Option.isSome_none, Bool.not_false, if_true]
      rw [Radix.insertIdx_append_length]
      refine F.sets sub C hnew hfits hshape ?_ ?_
      · simp at two ⊢
        omega
      · simpa [bitsOf, (hfits (newLeaf actor s) rfl).2] using Radix.bitsOf_insert
  | some x =>
    have hxd := C.here x rfl
    have hx : x ∈ L ++ ((some x).toList ++ R) := by simp
    have I := ih x hx
    have hset : setAt actor seq (L ++ ((some x).toList ++ R)) L.length = setNode actor seq x := by
      rw [setAt_eq]
      simp
    have hnew : ∀ e, e ∈ optEntries (setNode actor seq x) ↔ e.1 ≠ actor ∧ e ∈ optEntries (some x) ∨ e.1 = actor ∧
        seq = some e.2 := by
      simpa using I.entries
    have hfits := fun n hn => I.fits (n := n) (F.fits x hx) hk.symm hxd hn
    have hshape := I.shape
    simp only [Option.isSome_some, Bool.not_true, Bool.false_eq_true, if_false, hset]
    generalize setNode actor seq x = new at hnew hfits hshape
    cases new with
    | some x' =>
      have hput : (L ++ ((some x).toList ++ R)).set L.length x' = L ++ ((some x').toList ++ R) := by
        rw [set_append_right _ _ le_rfl]
        simp
      dsimp only
      rw [hput]
      exact F.sets sub C hnew hfits hshape (by simpa using two) (by simp [bitsOf, (hfits x' rfl).2, hxd])
    | none =>
      have herase : (L ++ ((some x).toList ++ R)).eraseIdx L.length = L ++ R := by
        rw [eraseIdx_append_of_length_le le_rfl]
        simp
      dsimp only
      rw [herase]
      split
      · rename_i only honly
        have hin : only ∈ L ++ R := by simp [honly]
        have Fo := F.fits only (C.mem hin)
        refine ⟨by simpa using sub only (C.mem hin), ?_, fun e => ?_⟩
        · simp only [Option.mem_some_iff, forall_eq']
          exact fun i hi _ => ⟨Nat.le_trans hi Fo.below.le, Fo.agree.mono hi⟩
        · have hall := F.entries_put sub C hnew e
          rw [entries_branch, ← hall, Option.toList_none, nil_append, honly]
          simp
      · rename_i hmany
        refine F.sets sub C hnew hfits hshape ?_ ?_
        · by_contra hlt
          have hone : (L ++ R).length = 1 := by
            simp at two hlt ⊢
            omega
          obtain ⟨only, honly⟩ := length_eq_one_iff.1 hone
          exact hmany only honly
        · have hnot : nibble actor level ∉ L.map (digitAt level) ++ R.map (digitAt level) := by
            rw [← map_append, mem_map]
            rintro ⟨y, hy, heq⟩
            exact C.ne hy heq
          simpa [bitsOf, hxd] using Radix.bitsOf_remove hnot

/-- **Setting or removing one actor.** -/
theorem setNode_spec (S : Shape n) : Sets n actor seq (setNode actor seq n) := by
  induction S with
  | leaf =>
    rename_i held t hash
    rw [setNode]
    split
    · rename_i heq
      subst heq
      refine ⟨?_, ?_, ?_⟩
      · cases seq <;> simp [newLeaf, Shape.leaf]
      · cases seq <;> simp [newLeaf, ClockNode.key, depth, SamePath.refl]
      · rintro ⟨b, s⟩
        cases seq with
        | none =>
          simp only [Option.map_none, optEntries_none, not_mem_nil, entries_leaf, mem_singleton, Prod.mk.injEq,
            reduceCtorEq, and_false, or_false, false_iff, not_and]
          exact fun hne heq => absurd heq hne
        | some t' =>
          simp only [Option.map_some, newLeaf, optEntries_some, entries_leaf, mem_singleton, Prod.mk.injEq,
            Option.some.injEq]
          constructor
          · rintro ⟨rfl, rfl⟩
            exact Or.inr ⟨rfl, rfl⟩
          · rintro (⟨hne, heq, -⟩ | ⟨rfl, rfl⟩)
            · exact absurd heq hne
            · exact ⟨rfl, rfl⟩
    · rename_i hne
      cases hd : firstDifference held actor with
      | none => exact absurd (firstDifference_none hd) hne
      | some d => exact setOutside_spec Shape.leaf hd (firstDifference_some hd).1
  | branch fan two bits count sub ih =>
    rename_i level bitmap m k children hash
    subst bits
    by_cases hout : (firstDifference k actor).any (· < level) = true
    · rw [setNode, if_pos hout]
      cases hd : firstDifference k actor with
      | none => simp [hd] at hout
      | some d =>
        rw [hd] at hout
        exact setOutside_spec (Shape.branch fan two rfl count sub) hd (by simpa [depth] using hout)
    · exact setNode_inside fan two sub (any_firstDifference.1 (Bool.eq_false_iff.2 hout)) ih

end ClockNode

end Irokle
