import Irokle.Proof.Trie

/-!
# Unions and selections of clock tries

* `ClockNode.union_spec` — the union of two tries has the shape of a trie and holds every entry of
  either at the higher position, whatever subtrees the two share;
* `ClockNode.selectedNode_spec` — a selection keeps exactly the entries of the given actors.
-/

namespace Irokle

open Std List

namespace ClockNode

variable {P : PtrEq} {site : List ℕ} {a b n r x y z : ClockNode} {children L R ca cb : List ClockNode}
  {bitmap ba bb : BitVec 16} {d level la lb m na nb i s t : ℕ} {hash ha hb : Option Digest}
  {k ka kb actor : ActorId}

/-- `n` has the entry of `actor` at the given position. -/
def Has (n : ClockNode) (actor : ActorId) (s : ℕ) : Prop := (actor, s) ∈ n.entries

/-- The higher of two positions, where there are any. -/
def Higher (A B : ℕ → Prop) (s : ℕ) : Prop := A s ∧ (∀ t, B t → t ≤ s) ∨ B s ∧ ∀ t, A t → t ≤ s

theorem Higher.comm {A B : ℕ → Prop} : Higher A B s ↔ Higher B A s := or_comm

theorem higher_left {A B : ℕ → Prop} (h : ∀ t, ¬B t) : Higher A B s ↔ A s := by simp [Higher, h]

theorem higher_right {A B : ℕ → Prop} (h : ∀ t, ¬A t) : Higher A B s ↔ B s := by simp [Higher, h]

/-- Positions of an actor that only one side has. -/
theorem higher_or {A B : ℕ → Prop} (h : ∀ s t, A s → B t → False) : Higher A B s ↔ A s ∨ B s := by
  constructor
  · rintro (⟨h, -⟩ | ⟨h, -⟩)
    · exact Or.inl h
    · exact Or.inr h
  · rintro (h' | h')
    · exact Or.inl ⟨h', fun t ht => (h s t h' ht).elim⟩
    · exact Or.inr ⟨h', fun t ht => (h t s ht h').elim⟩

/-- What a union holds. It may stand where both of its parts may. -/
structure Merges (a b r : ClockNode) : Prop where
  shape : Shape r
  under : ∀ k i, i ≤ a.depth → i ≤ b.depth → SamePath a.key k i → SamePath b.key k i → i ≤ r.depth ∧
    SamePath r.key k i
  entries : ∀ actor s, r.Has actor s ↔ Higher (a.Has actor) (b.Has actor) s

theorem Merges.symm (h : Merges a b r) : Merges b a r where
  shape := h.shape
  under k i ha hb hka hkb := h.under k i hb ha hkb hka
  entries actor s := (h.entries actor s).trans Higher.comm

/-- A trie is the union of itself with itself. -/
theorem Shape.merges_self (S : Shape a) : Merges a a a where
  shape := S
  under k i ha _ hk _ := ⟨ha, hk⟩
  entries actor s := by
    constructor
    · intro h
      exact Or.inl ⟨h, fun t ht => (S.unique ht h).le⟩
    · rintro (h | h)
      · exact h.1
      · exact h.1

/-! ## One leaf -/

theorem observed_spec (S : Shape a) : Merges a (leaf actor s hash) (observed a actor s) := by
  have hleaf : ∀ x t, (leaf actor s hash).Has x t ↔ x = actor ∧ t = s := by simp [Has]
  unfold observed
  split
  · rename_i hheld
    obtain ⟨t, ht, hle⟩ : ∃ t, lookup actor a = some t ∧ s ≤ t := by
      cases h : lookup actor a with
      | none => simp [h] at hheld
      | some t => exact ⟨t, rfl, by simpa [h] using hheld⟩
    have hat := S.lookup_iff.1 ht
    refine ⟨S, fun k i ha _ hk _ => ⟨ha, hk⟩, fun x u => ?_⟩
    constructor
    · intro h
      refine Or.inl ⟨h, fun v hv => ?_⟩
      obtain ⟨rfl, rfl⟩ := (hleaf x v).1 hv
      rwa [S.unique h hat]
    · rintro (h | ⟨hl, hmax⟩)
      · exact h.1
      · obtain ⟨rfl, rfl⟩ := (hleaf x u).1 hl
        have htu : t = u := Nat.le_antisymm (hmax t hat) hle
        exact htu ▸ hat
  · rename_i hlow
    have I : Sets a actor (some s) (setNode actor (some s) a) := setNode_spec S
    have hmem : (actor, s) ∈ optEntries (setNode actor (some s) a) := (I.entries _).2 (Or.inr ⟨rfl, rfl⟩)
    obtain ⟨r, hr⟩ : ∃ r, setNode actor (some s) a = some r := by
      cases h : setNode actor (some s) a with
      | none => simp [h] at hmem
      | some r => exact ⟨r, rfl⟩
    rw [hr] at I ⊢
    refine ⟨I.shape r rfl, fun k i ha _ hka hkb => ?_, fun x u => ?_⟩
    · obtain ⟨hdepth, hkey⟩ := I.under r rfl i ha (hkb.trans hka.symm)
      exact ⟨hdepth, hkey.trans hka⟩
    · have hset := I.entries (x, u)
      rw [optEntries_some] at hset
      refine hset.trans ?_
      by_cases hx : x = actor
      · subst hx
        have hbelow : ∀ t, a.Has x t → t ≤ s := by
          intro t ht
          have := S.lookup_iff.2 ht
          rw [this] at hlow
          simp only [Option.any_some, decide_eq_true_eq, Nat.not_le] at hlow
          exact hlow.le
        simp only [ne_eq, not_true_eq_false, false_and, true_and, false_or, Option.some.injEq]
        constructor
        · rintro rfl
          exact Or.inr ⟨(hleaf x s).2 ⟨rfl, rfl⟩, hbelow⟩
        · rintro (⟨h, hmax⟩ | ⟨h, -⟩)
          · exact Nat.le_antisymm (hmax s ((hleaf x s).2 ⟨rfl, rfl⟩)) (hbelow u h)
          · exact ((hleaf x u).1 h).2.symm
      · rw [higher_left fun t ht => hx ((hleaf x t).1 ht).1]
        simp [hx, Has]

/-! ## Two branches -/

/-- Subtrees with different prefixes. -/
theorem pair_merges (Sa : Shape a) (Sb : Shape b) (hd : firstDifference a.key b.key = some d) (hda : d < a.depth)
    (hdb : d < b.depth) : Merges a b (pair d a b) := by
  obtain ⟨-, -, hne⟩ := firstDifference_some hd
  refine ⟨Sa.pair Sb hd hda hdb, fun k i _ _ hka hkb => ⟨?_, hka⟩, fun actor s => ?_⟩
  · by_contra hlt
    exact hne ((hka.trans hkb.symm) d (Nat.not_le.1 hlt))
  · have hdisjoint : ∀ s t, a.Has actor s → b.Has actor t → False := by
      intro s t hs ht
      exact hne ((Sa.agree hs d hda).symm.trans (Sb.agree ht d hdb))
    rw [higher_or hdisjoint]
    exact mem_entries_pair

/-- The entry of an actor lies below the child with its nibble. -/
def Under (level : ℕ) (children : List ClockNode) (actor : ActorId) (s : ℕ) : Prop :=
  ∃ x ∈ children, digitAt level x = nibble actor level ∧ x.Has actor s

theorem Fan.has_iff (F : Fan level k children) (sub : ∀ x ∈ children, Shape x) :
    (branch level bitmap m k children hash).Has actor s ↔ Under level children actor s := by
  unfold Has
  rw [entries_branch, mem_flatMap]
  constructor
  · rintro ⟨x, hx, he⟩
    exact ⟨x, hx, ((sub x hx).nibble_eq (F.fits x hx).below he).symm, he⟩
  · rintro ⟨x, hx, -, he⟩
    exact ⟨x, hx, he⟩

theorem Fan.under_iff (F : Fan level k children) : Under level children actor s ↔
    ∃ x, childAt (bitsOf level children) children (nibble actor level) = some x ∧ x.Has actor s := by
  simp only [Under, F.childAt_iff (nibble_lt _ _), and_assoc]

/-- Away from the digit of a cut, an entry lies below the other children. -/
theorem under_of_ne {old : Option ClockNode} (C : Radix.Cut (digitAt level) d children L old R)
    (h : nibble actor level ≠ d) :
    Under level children actor s ↔ Under level (L ++ R) actor s := by
  constructor
  · rintro ⟨x, hx, hxd, hs⟩
    rw [C.eq, Radix.mem_put] at hx
    exact ⟨x, hx.resolve_right fun hold => h (hxd.symm.trans (C.here x hold)), hxd, hs⟩
  · rintro ⟨x, hx, h⟩
    exact ⟨x, C.mem hx, h⟩

theorem under_of_eq {old : Option ClockNode}
    (C : Radix.Cut (digitAt level) (nibble actor level) children L old R) :
    Under level children actor s ↔ ∃ x, old = some x ∧ x.Has actor s := by
  simp only [Under, ← C.mem_iff, and_assoc]

/-- Two subtrees that share a longer prefix than the branch above them has merge below it. -/
theorem Merges.fits (h : Merges x y r) (hx : Fits level k x) (hy : Fits level k y)
    (hd : digitAt level y = digitAt level x) :
    Fits level k r ∧ digitAt level r = digitAt level x := by
  have hxy : SamePath y.key x.key (level + 1) := samePath_succ.2 ⟨hy.agree.trans hx.agree.symm, hd⟩
  obtain ⟨hdepth, hagree⟩ := h.under x.key (level + 1) hx.below hy.below (SamePath.refl _ _) hxy
  exact ⟨⟨hdepth, (hagree.mono (Nat.le_succ _)).trans hx.agree⟩, hagree level (Nat.lt_succ_self _)⟩

/-- A subtree merged into the child at its digit, or placed where there is none. -/
theorem Fan.merges_at {old : Option ClockNode} {bitmap' : BitVec 16} {m' : ℕ} {hash' : Option Digest}
    (F : Fan level k children) (sub : ∀ x ∈ children, Shape x)
    (C : Radix.Cut (digitAt level) (digitAt level b) children L old R) (Sb : Shape b) (hb : Fits level k b)
    (hz : Fits level k z) (hd : digitAt level z = digitAt level b) (Sz : Shape z)
    (hentries : ∀ actor s, z.Has actor s ↔ Higher (fun s => ∃ x, old = some x ∧ x.Has actor s) (b.Has actor) s)
    (two : 2 ≤ (L ++ z :: R).length) (bits : bitmap' = bitsOf level (L ++ z :: R))
    (count : m' = sumLen (L ++ z :: R)) :
    Merges (branch level bitmap m k children hash) b (branch level bitmap' m' k (L ++ z :: R) hash') := by
  have hnew : ∀ x ∈ some z, Fits level k x ∧ digitAt level x = digitAt level b := by simpa using ⟨hz, hd⟩
  have F' : Fan level k (L ++ z :: R) := F.put C hnew
  have C' : Radix.Cut (digitAt level) (digitAt level b) (L ++ z :: R) L (some z) R :=
    ⟨rfl, C.below, fun x hx => (hnew x hx).2, C.above⟩
  have sub' : ∀ x ∈ L ++ z :: R, Shape x := fun x hx =>
    (Radix.mem_put.1 (show x ∈ L ++ ((some z).toList ++ R) from hx)).elim (fun h => sub x (C.mem h)) fun h =>
      Option.some.inj h ▸ Sz
  refine ⟨Shape.branch F' two bits count sub', fun k' i hi _ hka _ => ⟨hi, hka⟩, fun actor s => ?_⟩
  rw [F'.has_iff sub']
  simp only [Higher, F.has_iff sub]
  -- at the digit of `b` the two subtrees are merged, elsewhere nothing changes
  by_cases hactor : nibble actor level = digitAt level b
  · rw [← hactor] at C C'
    simp only [under_of_eq C, under_of_eq C', Option.some.injEq, exists_eq_left']
    exact hentries actor s
  · have hnone : ∀ t, ¬b.Has actor t := fun t ht => hactor (Sb.nibble_eq hb.below ht)
    rw [← Higher, higher_left hnone, under_of_ne C hactor, under_of_ne C' hactor]

/-- The lower branch below one child of the upper one. -/
theorem unionBelow_spec (F : Fan level k children) (two : 2 ≤ children.length) (count : m = sumLen children)
    (sub : ∀ x ∈ children, Shape x) (Sb : Shape b) (hb : Fits level k b)
    (ih : ∀ x ∈ children, ∀ site, Merges x b (union P site x b)) :
    Merges (branch level (bitsOf level children) m k children hash) b
      (unionBelow P site level (bitsOf level children) m k children hash b) := by
  obtain ⟨L, old, R, C, hslot, hbit⟩ := F.split (nibble_lt b.key level)
  have hcut := C.eq
  subst hcut
  unfold unionBelow
  dsimp only
  rw [hslot, hbit]
  cases old with
  | some x =>
    have hxd := C.here x rfl
    have hx : x ∈ L ++ ((some x).toList ++ R) := by simp
    have M := ih x hx (nibble b.key level :: site)
    obtain ⟨hfits, hdigit⟩ := M.fits (F.fits x hx) hb hxd.symm
    rw [if_pos (by rfl)]
    split
    · rename_i held hheld
      obtain rfl : held = x := by simpa using hheld.symm
      generalize union P (nibble b.key level :: site) held b = z at M hfits hdigit ⊢
      have hz : ∀ actor s, z.Has actor s ↔ Higher (fun s => ∃ x, some held = some x ∧ x.Has actor s)
          (b.Has actor) s := by
        simpa using M.entries
      split
      · rename_i hsame
        obtain rfl := P.sound _ _ _ hsame
        exact F.merges_at sub C Sb hb hfits (hdigit.trans hxd) M.shape hz (by simpa using two) rfl count
      · have hset : (L ++ ((some held).toList ++ R)).set L.length z = L ++ z :: R := by
          rw [set_append_right _ _ le_rfl]
          simp
        rw [hset]
        exact F.merges_at sub C Sb hb hfits (hdigit.trans hxd) M.shape hz (by simpa using two)
          (by simp [bitsOf, hdigit]) rfl
    · rename_i hnone
      simp at hnone
  | none =>
    rw [if_neg (by simp), Radix.insertIdx_append_length]
    refine F.merges_at sub C Sb hb hb rfl Sb (fun actor s => (higher_right (by simp)).symm) ?_ ?_ rfl
    · simp at two ⊢
      omega
    · simp only [bitsOf, Option.toList_none, nil_append, map_append, map_cons]
      exact Radix.bitsOf_insert

/-! ### Branches at one level -/

/-- The merged child of one digit. -/
def mergedAt (P : PtrEq) (site : List ℕ) (ba : BitVec 16) (ca : List ClockNode) (bb : BitVec 16)
    (cb : List ClockNode) (d : ℕ) :
    Option ClockNode :=
  match childAt ba ca d, childAt bb cb d with
  | some x, some y => some (union P (d :: site) x y)
  | some x, none => some x
  | none, some x => some x
  | none, none => none

/-- The children of `union_children`, without the equations its termination needs. -/
theorem unionChildren_eq : unionChildren P site la ba na ka ca ha lb bb nb kb cb hb =
    let children := ((List.range 16).filter fun d => (ba ||| bb).getLsbD d).filterMap
      (mergedAt P site ba ca bb cb)
    if ba = ba ||| bb ∧ sameChildren P (17 :: site) ca children then branch la ba na ka ca ha
    else if bb = ba ||| bb ∧ sameChildren P (18 :: site) cb children then branch lb bb nb kb cb hb
    else branch la (ba ||| bb) (sumLen children) ka children none := by
  rw [unionChildren]
  refine congrArg (fun f : ℕ → Option ClockNode =>
    let children := ((List.range 16).filter fun d => (ba ||| bb).getLsbD d).filterMap f
    if ba = ba ||| bb ∧ sameChildren P (17 :: site) ca children then branch la ba na ka ca ha
    else if bb = ba ||| bb ∧ sameChildren P (18 :: site) cb children then branch lb bb nb kb cb hb
    else branch la (ba ||| bb) (sumLen children) ka children none) (funext fun d => ?_)
  unfold mergedAt
  split <;> simp_all

theorem eq_of_sameChildren {own : List ClockNode} (hlen : own.length = children.length)
    (h : sameChildren P site own children = true) : own = children := by
  have key : ∀ (own children : List ClockNode) (start : ℕ), own.length = children.length →
      (((own.zip children).zipIdx start).all fun e => P.same (e.2 :: site) e.1.1 e.1.2) = true →
        own = children := by
    intro own
    induction own with
    | nil =>
      intro children start hlen _
      exact (length_eq_zero_iff.1 hlen.symm).symm
    | cons x own ih =>
      intro children start hlen h
      cases children with
      | nil => cases hlen
      | cons y children =>
        simp only [zip_cons_cons, zipIdx_cons, all_cons, Bool.and_eq_true] at h
        rw [P.sound _ _ _ h.1, ih children (start + 1) (Nat.succ_injective hlen) h.2]
  exact key own children 0 hlen h

/-- What the children of a union are. -/
structure Merged (level : ℕ) (k : ActorId) (ca cb children : List ClockNode) : Prop where
  fan : Fan level k children
  shape : ∀ z ∈ children, Shape z
  bits : bitsOf level ca ||| bitsOf level cb = bitsOf level children
  entries : ∀ actor s, Under level children actor s ↔ Higher (Under level ca actor) (Under level cb actor) s

section SameLevel

variable (Fa : Fan level k ca) (Fb : Fan level k cb) (suba : ∀ x ∈ ca, Shape x) (subb : ∀ x ∈ cb, Shape x)
  (ih : ∀ x ∈ ca, ∀ y ∈ cb, ∀ site, Merges x y (union P site x y))

include Fa Fb suba subb ih

/-- One merged child. -/
theorem mergedAt_spec (hd : d < 16) (hz : mergedAt P site (bitsOf level ca) ca (bitsOf level cb) cb d = some z) :
    Fits level k z ∧ digitAt level z = d ∧ Shape z ∧ ∀ actor s, nibble actor level = d →
      (z.Has actor s ↔ Higher (Under level ca actor) (Under level cb actor) s) := by
  unfold mergedAt at hz
  split at hz
  · rename_i x y hx hy
    cases hz
    obtain ⟨hxm, hxd⟩ := (Fa.childAt_iff hd).1 hx
    obtain ⟨hym, hyd⟩ := (Fb.childAt_iff hd).1 hy
    have M := ih x hxm y hym (d :: site)
    obtain ⟨hfits, hdigit⟩ := M.fits (Fa.fits x hxm) (Fb.fits y hym) (hyd.trans hxd.symm)
    refine ⟨hfits, hdigit.trans hxd, M.shape, ?_⟩
    rintro actor s rfl
    simp [M.entries, Higher, Fa.under_iff, Fb.under_iff, hx, hy]
  · rename_i x hx hy
    cases hz
    obtain ⟨hxm, hxd⟩ := (Fa.childAt_iff hd).1 hx
    refine ⟨Fa.fits z hxm, hxd, suba z hxm, ?_⟩
    rintro actor s rfl
    simp [Higher, Fa.under_iff, Fb.under_iff, hx, hy]
  · rename_i y hx hy
    cases hz
    obtain ⟨hym, hyd⟩ := (Fb.childAt_iff hd).1 hy
    refine ⟨Fb.fits z hym, hyd, subb z hym, ?_⟩
    rintro actor s rfl
    simp [Higher, Fa.under_iff, Fb.under_iff, hx, hy]
  · cases hz

omit suba subb ih in
/-- A digit of either side has a merged child. -/
theorem mergedAt_isSome (P : PtrEq) (site : List ℕ) (hd : d < 16) :
    (∃ z, mergedAt P site (bitsOf level ca) ca (bitsOf level cb) cb d = some z) ↔
      (∃ x ∈ ca, digitAt level x = d) ∨ ∃ x ∈ cb, digitAt level x = d := by
  simp only [← Fa.childAt_iff hd, ← Fb.childAt_iff hd]
  unfold mergedAt
  split <;> simp_all

theorem merged_children (site : List ℕ) : Merged level k ca cb (((List.range 16).filter fun d =>
    (bitsOf level ca ||| bitsOf level cb).getLsbD d).filterMap
      (mergedAt P site (bitsOf level ca) ca (bitsOf level cb) cb)) := by
  have hspec := fun {d z} => @mergedAt_spec P site z ca cb d level k Fa Fb suba subb ih
  set bits := bitsOf level ca ||| bitsOf level cb with hbits
  have hbit : ∀ d < 16, bits.getLsbD d = true ↔ (∃ x ∈ ca, digitAt level x = d) ∨
      ∃ x ∈ cb, digitAt level x = d := by
    intro d hd
    rw [hbits, BitVec.getLsbD_or, Bool.or_eq_true, Fan.getLsbD_iff hd, Fan.getLsbD_iff hd]
  have hmem : ∀ z, z ∈ ((List.range 16).filter fun d => bits.getLsbD d).filterMap
      (mergedAt P site (bitsOf level ca) ca (bitsOf level cb) cb) ↔
        ∃ d < 16, mergedAt P site (bitsOf level ca) ca (bitsOf level cb) cb d = some z := by
    intro z
    simp only [mem_filterMap, mem_filter, mem_range]
    constructor
    · rintro ⟨d, ⟨hd, -⟩, hz⟩
      exact ⟨d, hd, hz⟩
    · rintro ⟨d, hd, hz⟩
      exact ⟨d, ⟨hd, (hbit d hd).2 ((mergedAt_isSome Fa Fb P site hd).1 ⟨z, hz⟩)⟩, hz⟩
  refine ⟨⟨Fa.level_lt, ?_, fun z hz => ?_⟩, fun z hz => ?_, ?_, fun actor s => ?_⟩
  · -- the digits are passed in ascending order
    rw [pairwise_filterMap]
    refine (pairwise_lt_range.filter _).imp_of_mem ?_
    intro d d' hd hd' hlt z hz z' hz'
    have hd := mem_range.1 (mem_filter.1 hd).1
    have hd' := mem_range.1 (mem_filter.1 hd').1
    rw [(hspec hd hz).2.1, (hspec hd' hz').2.1]
    exact hlt
  · obtain ⟨d, hd, hz⟩ := (hmem z).1 hz
    exact (hspec hd hz).1
  · obtain ⟨d, hd, hz⟩ := (hmem z).1 hz
    exact (hspec hd hz).2.2.1
  · refine Radix.eq_bitsOf fun d hd => ?_
    rw [Bool.eq_iff_iff, hbit d hd, ← mergedAt_isSome Fa Fb P site hd, decide_eq_true_eq, mem_map]
    constructor
    · rintro ⟨z, hz⟩
      exact ⟨z, (hmem z).2 ⟨d, hd, hz⟩, (hspec hd hz).2.1⟩
    · rintro ⟨z, hz, hzd⟩
      obtain ⟨d', hd', hz⟩ := (hmem z).1 hz
      have hdd : d' = d := (hspec hd' hz).2.1.symm.trans hzd
      exact ⟨z, hdd ▸ hz⟩
  · have hactor := nibble_lt actor level
    constructor
    · rintro ⟨z, hz, hzd, h⟩
      obtain ⟨d, hd, hz⟩ := (hmem z).1 hz
      have S := hspec hd hz
      exact (S.2.2.2 actor s (hzd.symm.trans S.2.1)).1 h
    · intro h
      obtain ⟨z, hz⟩ := (mergedAt_isSome Fa Fb P site hactor).2 (by
        rcases h with ⟨⟨x, hx, hxd, -⟩, -⟩ | ⟨⟨x, hx, hxd, -⟩, -⟩
        · exact Or.inl ⟨x, hx, hxd⟩
        · exact Or.inr ⟨x, hx, hxd⟩)
      have S := hspec hactor hz
      exact ⟨z, (hmem z).2 ⟨_, hactor, hz⟩, S.2.1, (S.2.2.2 actor s rfl).2 h⟩

/-- The union of two branches at one level. -/
theorem unionChildren_spec (twoa : 2 ≤ ca.length) (twob : 2 ≤ cb.length) (counta : na = sumLen ca)
    (countb : nb = sumLen cb) (hk : SamePath kb k level) :
    Merges (branch level (bitsOf level ca) na k ca ha) (branch level (bitsOf level cb) nb kb cb hb)
      (unionChildren P site level (bitsOf level ca) na k ca ha level (bitsOf level cb) nb kb cb hb) := by
  have Fb' : Fan level kb cb := Fb.rekey hk.symm
  rw [unionChildren_eq]
  dsimp only
  have M := merged_children Fa Fb suba subb ih site
  set children := ((List.range 16).filter fun d => (bitsOf level ca ||| bitsOf level cb).getLsbD d).filterMap
    (mergedAt P site (bitsOf level ca) ca (bitsOf level cb) cb)
  have hentries : ∀ actor s, Under level children actor s ↔
      Higher ((branch level (bitsOf level ca) na k ca ha).Has actor)
      ((branch level (bitsOf level cb) nb kb cb hb).Has actor) s := by
    intro actor s
    rw [M.entries actor s]
    simp only [Higher, Fa.has_iff suba, Fb'.has_iff subb]
  -- as many children as bits
  have hlen : ∀ {cs : List ClockNode}, Fan level k cs → Radix.countOnes (bitsOf level cs) = cs.length := by
    intro cs F
    have h := Radix.countOnes_bitsOf (w := 16) F.digits_ascending (by simp [digitAt_lt])
    simpa [bitsOf] using h
  split
  · rename_i hsame
    have hca : ca = children := by
      refine eq_of_sameChildren ?_ hsame.2
      rw [← hlen Fa, ← hlen M.fan, ← M.bits, ← hsame.1]
    refine ⟨Shape.branch Fa twoa rfl counta suba, fun k' i hi _ hka _ => ⟨hi, hka⟩, fun actor s => ?_⟩
    rw [Fa.has_iff suba, ← hentries actor s, ← hca]
  · split
    · rename_i hsame
      have hcb : cb = children := by
        refine eq_of_sameChildren ?_ hsame.2
        rw [← hlen Fb, ← hlen M.fan, ← M.bits, ← hsame.1]
      refine ⟨Shape.branch Fb' twob rfl countb subb, fun k' i _ hi _ hkb => ⟨hi, hkb⟩, fun actor s => ?_⟩
      rw [Fb'.has_iff subb, ← hentries actor s, ← hcb]
    · have htwo : 2 ≤ children.length := by
        refine Nat.le_trans twoa ?_
        rw [← hlen Fa, ← hlen M.fan, ← M.bits]
        refine countP_mono_left fun i _ h => ?_
        simp [BitVec.getLsbD_or, h]
      refine ⟨Shape.branch M.fan htwo M.bits rfl M.shape, fun k' i hi _ hka _ => ⟨hi, hka⟩, fun actor s => ?_⟩
      rw [M.fan.has_iff M.shape, hentries actor s]

end SameLevel

/-- **The union of two tries.** -/
theorem union_spec (P : PtrEq) (Sa : Shape a) (Sb : Shape b) (site : List ℕ) : Merges a b (union P site a b) := by
  induction hN : sizeOf a + sizeOf b using Nat.strong_induction_on generalizing a b site with
  | _ N IH =>
    subst hN
    by_cases hsame : P.same site a b = true
    · obtain rfl := P.sound _ _ _ hsame
      rw [union.eq_def, if_pos hsame]
      exact Sa.merges_self
    cases Sb with
    | leaf =>
      rw [union.eq_def, if_neg hsame]
      cases a <;> exact observed_spec Sa
    | branch Fb twob bitsb countb subb =>
      rename_i lb bb nb kb cb hb
      cases Sa with
      | leaf =>
        rw [union, if_neg hsame]
        · exact (observed_spec (Shape.branch Fb twob bitsb countb subb)).symm
        · simp
      | branch Fa twoa bitsa counta suba =>
        rename_i la ba na ka ca ha
        have Sa : Shape (branch la ba na ka ca ha) := Shape.branch Fa twoa bitsa counta suba
        have Sb : Shape (branch lb bb nb kb cb hb) := Shape.branch Fb twob bitsb countb subb
        subst bitsa bitsb
        rw [union, if_neg hsame]
        split
        · -- the prefixes differ above both
          rename_i d hd
          obtain ⟨hd, hlt⟩ := Option.filter_eq_some_iff.1 hd
          have hlt : d < min la lb := by simpa using hlt
          exact pair_merges Sa Sb hd (Nat.lt_of_lt_of_le hlt (Nat.min_le_left _ _))
            (Nat.lt_of_lt_of_le hlt (Nat.min_le_right _ _))
        · rename_i hd
          have hagree : SamePath ka kb (min la lb) := by
            refine any_firstDifference.1 ?_
            cases h : firstDifference ka kb with
            | none => rfl
            | some d => simpa [h, Option.filter] using hd
          split
          · rename_i hl
            subst hl
            rw [Nat.min_self] at hagree
            refine unionChildren_spec Fa (Fb.rekey hagree.symm) suba subb ?_ twoa twob counta countb hagree.symm
            intro x hx y hy site
            refine IH _ ?_ (suba x hx) (subb y hy) site rfl
            have h1 := sizeOf_lt_of_mem hx
            have h2 := sizeOf_lt_of_mem hy
            simp only [branch.sizeOf_spec]
            omega
          · split
            · rename_i hne hl
              rw [Nat.min_eq_left hl.le] at hagree
              refine unionBelow_spec Fa twoa counta suba Sb ⟨hl, hagree.symm⟩ ?_
              intro x hx site
              refine IH _ ?_ (suba x hx) Sb site rfl
              have := sizeOf_lt_of_mem hx
              simp only [branch.sizeOf_spec]
              omega
            · rename_i hne hl
              have hl : lb < la := Nat.lt_of_le_of_ne (Nat.not_lt.1 hl) fun h => hne h.symm
              rw [Nat.min_eq_right hl.le] at hagree
              refine (unionBelow_spec Fb twob countb subb Sa ⟨hl, hagree⟩ ?_).symm
              intro x hx site
              refine IH _ ?_ (subb x hx) Sa site rfl
              have := sizeOf_lt_of_mem hx
              simp only [branch.sizeOf_spec]
              omega

/-! ## Selections -/

/-- What a selection keeps of a node. It may stand where the node stood. -/
structure Selects (actors : BTreeSet ActorId) (n : ClockNode) (r : Option ClockNode) : Prop where
  shape : ∀ n' ∈ r, Shape n'
  under : ∀ n' ∈ r, n.depth ≤ n'.depth ∧ SamePath n'.key n.key n.depth
  entries : ∀ e, e ∈ optEntries r ↔ e ∈ n.entries ∧ e.1 ∈ actors

/-- The loop over the children: none of them changed, or it built the list of those kept. -/
theorem selectedChildren_spec {actors : BTreeSet ActorId} (site : List ℕ)
    (rest passed : List ClockNode) (index : ℕ) (changed : Option (List ClockNode))
    (ih : ∀ x ∈ rest, ∀ site, Selects actors x (selectedNode P site actors x)) :
    (selectedChildren P site actors index passed changed rest = none ∧ changed = none ∧
      ∀ x ∈ rest, Selects actors x (some x)) ∨
    ∃ rs, List.Forall₂ (Selects actors) rest rs ∧
      selectedChildren P site actors index passed changed rest =
        some (changed.getD passed ++ rs.flatMap Option.toList) := by
  induction rest generalizing passed index changed with
  | nil =>
    cases changed with
    | none => exact Or.inl ⟨by rw [selectedChildren], rfl, by simp⟩
    | some kept => exact Or.inr ⟨[], List.Forall₂.nil, by rw [selectedChildren]; simp⟩
  | cons x rest IH =>
    have hx := ih x (by simp) (index :: site)
    have hrest := fun passed changed => IH passed (index + 1) changed fun y hy => ih y (mem_cons_of_mem _ hy)
    rw [selectedChildren]
    split
    · rename_i hkeep
      obtain ⟨hnone, hany⟩ := Bool.and_eq_true_iff.1 hkeep
      obtain rfl : changed = none := Option.isNone_iff_eq_none.1 hnone
      have hself : selectedNode P (index :: site) actors x = some x := by
        cases h : selectedNode P (index :: site) actors x with
        | none => simp [h] at hany
        | some y =>
          rw [h, Option.any_some] at hany
          rw [P.sound _ _ _ hany]
      rw [hself] at hx
      rcases hrest (passed ++ [x]) none with ⟨h1, h2, h3⟩ | ⟨rs, hrs, h⟩
      · exact Or.inl ⟨h1, rfl, fun y hy => (mem_cons.1 hy).elim (fun h => h ▸ hx) (h3 y)⟩
      · exact Or.inr ⟨some x :: rs, List.Forall₂.cons hx hrs, by rw [h]; simp⟩
    · rcases hrest (passed ++ [x])
        (some (changed.getD passed ++ (selectedNode P (index :: site) actors x).toList)) with
        ⟨-, h, -⟩ | ⟨rs, hrs, h⟩
      · cases h
      · exact Or.inr ⟨_ :: rs, List.Forall₂.cons hx hrs, by rw [h]; simp⟩

/-- The children kept stand in their order. -/
theorem Fan.selects {actors : BTreeSet ActorId} {rs : List (Option ClockNode)} (F : Fan level k children)
    (h : List.Forall₂ (Selects actors) children rs) : Fan level k (rs.flatMap Option.toList) ∧
      (∀ x ∈ rs.flatMap Option.toList, Shape x ∧ ∃ y ∈ children, digitAt level x = digitAt level y) ∧
      ∀ e, (∃ x ∈ rs.flatMap Option.toList, e ∈ x.entries) ↔ (∃ x ∈ children, e ∈ x.entries) ∧ e.1 ∈ actors := by
  induction h with
  | nil => exact ⟨⟨F.level_lt, by simp, by simp⟩, by simp, by simp⟩
  | cons hx hrs ih =>
    rename_i x r rest rs
    have hsub : rest.Sublist (x :: rest) := sublist_cons_self _ _
    obtain ⟨F', hshape, hentries⟩ := ih (F.sublist hsub)
    have Fx := F.fits x (by simp)
    have hnew : ∀ n ∈ r, Fits level k n ∧ digitAt level n = digitAt level x := by
      intro n hn
      obtain ⟨hdepth, hagree⟩ := hx.under n hn
      exact ⟨⟨Nat.lt_of_lt_of_le Fx.below hdepth, (hagree.mono Fx.below.le).trans Fx.agree⟩,
        hagree level Fx.below⟩
    have hentry : ∀ e, (∃ n ∈ r, e ∈ n.entries) ↔ e ∈ x.entries ∧ e.1 ∈ actors := by
      intro e
      rw [← hx.entries e]
      simp [optEntries]
    rw [flatMap_cons]
    refine ⟨⟨F.level_lt, ?_, ?_⟩, ?_, ?_⟩
    · refine pairwise_append.2 ⟨by cases r <;> simp, F'.ascending, ?_⟩
      intro n hn y hy
      obtain ⟨-, z, hz, hyz⟩ := hshape y hy
      rw [(hnew n (by simpa using hn)).2, hyz]
      exact (pairwise_cons.1 F.ascending).1 z hz
    · intro n hn
      rcases mem_append.1 hn with h | h
      · exact (hnew n (by simpa using h)).1
      · exact F'.fits n h
    · intro n hn
      rcases mem_append.1 hn with h | h
      · exact ⟨hx.shape n (by simpa using h), x, by simp, (hnew n (by simpa using h)).2⟩
      · obtain ⟨hs, y, hy, hd⟩ := hshape n h
        exact ⟨hs, y, mem_cons_of_mem _ hy, hd⟩
    · intro e
      have h1 := hentry e
      have h2 := hentries e
      simp only [Option.mem_def] at h1
      simp only [mem_append, Option.mem_toList, mem_cons, or_and_right, exists_or, exists_eq_left]
      rw [h1, h2]

/-- **A selection keeps exactly the entries of the given actors.** -/
theorem selectedNode_spec (P : PtrEq) (actors : BTreeSet ActorId) (S : Shape n) (site : List ℕ) :
    Selects actors n (selectedNode P site actors n) := by
  induction S generalizing site with
  | leaf =>
    rename_i actor s hash
    rw [selectedNode]
    split
    · rename_i hin
      refine ⟨by simp [Shape.leaf], by simp [SamePath.refl], fun e => ?_⟩
      simp only [optEntries_some, entries_leaf, mem_singleton]
      exact ⟨fun h => ⟨h, h ▸ hin⟩, fun h => h.1⟩
    · rename_i hout
      refine ⟨by simp, by simp, fun e => ?_⟩
      simp only [optEntries_none, not_mem_nil, entries_leaf, mem_singleton, false_iff, not_and]
      rintro rfl
      exact hout
  | branch fan two bits count sub ih =>
    rename_i level bitmap m k children hash
    have S : Shape (branch level bitmap m k children hash) := Shape.branch fan two bits count sub
    rw [selectedNode]
    rcases selectedChildren_spec site children [] 0 none ih with ⟨hnone, -, hall⟩ | ⟨rs, hrs, hsome⟩
    · rw [hnone]
      refine ⟨by simpa using S, by simp [SamePath.refl], fun e => ?_⟩
      simp only [optEntries_some, entries_branch, mem_flatMap]
      constructor
      · rintro ⟨x, hx, he⟩
        have := ((hall x hx).entries e).1 (by simpa using he)
        exact ⟨⟨x, hx, he⟩, this.2⟩
      · exact fun h => h.1
    · rw [hsome]
      obtain ⟨F', hshape, hentries⟩ := fan.selects hrs
      simp only [Option.getD_none, nil_append]
      set kept := rs.flatMap Option.toList
      have hflat : ∀ e, e ∈ kept.flatMap entries ↔ e ∈ (branch level bitmap m k children hash).entries ∧
          e.1 ∈ actors := by
        intro e
        rw [mem_flatMap, entries_branch, mem_flatMap]
        exact hentries e
      split
      · rename_i h
        cases h
      · rename_i h
        have hnil : kept = [] := Option.some.inj h
        exact ⟨by simp, by simp, fun e => by rw [← hflat e, hnil]; simp⟩
      · rename_i only h
        have honly : kept = [only] := Option.some.inj h
        have Fo := F'.fits only (by simp [honly])
        refine ⟨?_, ?_, fun e => ?_⟩
        · simpa using (hshape only (by simp [honly])).1
        · simp only [Option.mem_some_iff, forall_eq']
          exact ⟨Fo.below.le, Fo.agree⟩
        · rw [← hflat e, honly]
          simp
      · rename_i first second rest h
        have hkept : kept = first :: second :: rest := Option.some.inj h
        rw [← hkept]
        have hfirst := (F'.fits first (by simp [hkept])).agree
        have hfold : kept.foldl (fun bits child => bits ||| 1#16 <<< nibble child.key level) 0#16 =
            bitsOf level kept := by
          rw [bitsOf, Radix.bitsOf, foldl_map]
          rfl
        rw [hfold]
        refine ⟨?_, ?_, fun e => ?_⟩
        · simp only [Option.mem_some_iff, forall_eq']
          exact Shape.branch (F'.rekey hfirst.symm) (by simp [hkept]) rfl rfl fun x hx => (hshape x hx).1
        · simp only [Option.mem_some_iff, forall_eq']
          exact ⟨le_rfl, hfirst⟩
        · rw [← hflat e]
          simp

end ClockNode

end Irokle
