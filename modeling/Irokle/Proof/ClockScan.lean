import Irokle.Lib.Outcome
import Irokle.Proof.ClockStore

/-!
# Checking stored clocks by a scan

* `ClockScan.checkRecord_ok` — a scan keeps of a record what a load decodes from it;
* `ClockScan.allChecked_iff_loads` — all collected records pass their checks exactly when all of them load;
* `clockScan_exact` — a scan accepts a root exactly when the root was collected and every collected
  record loads, and once the records outgrew the memory, exactly when the root loads.

A scan checks each collected branch against the records of its children alone. The levels grow from a
branch to its children, so these local checks decide about whole tries.
-/

namespace Irokle

open Std Postcard List ExtTreeMap

variable {digest : Bytes → Digest} {S : NodeReader} {h name : Digest} {bytes : Bytes} {n x : ClockNode}
  {children : List ClockNode} {names : List Digest} {bitmap bitmap' : BitVec 16} {len len' : ℕ}

namespace ClockScan

open ClockNode NodeReader

variable {ck : Checked} {nodes : BTreeMap Digest Checked}

/-! ## Records -/

/-- What a scan keeps of a leaf. -/
def leafChecked (actor : ActorId) : Checked :=
  { key := actor, len := 1, level := 64, bitmap := 0#16, children := [] }

theorem countOnes_le (bitmap : BitVec 16) : Radix.countOnes bitmap ≤ 16 := by
  rw [Radix.countOnes]
  exact countP_le_length

/-- **A scan keeps of a record what a load decodes from it.** -/
theorem checkRecord_ok : checkRecord bytes = .ok ck ↔
    (∃ actor seq, Encoded.decode bytes = some (.leaf actor seq) ∧ ck = leafChecked actor) ∨
      Encoded.decode bytes = some (.branch ck.level ck.bitmap ck.len ck.key ck.children) ∧ ck.level < 64 ∧
      2 ≤ ck.children.length ∧
        Radix.countOnes ck.bitmap = ck.children.length ∧ ck.len < u64Size := by
  unfold checkRecord takePrefix Encoded.decode
  cases h1 : takeU32 bytes with
  | none => simp
  | some e =>
    obtain ⟨variant, bytes⟩ := e
    match variant with
    | 0 =>
      cases h2 : takeArray bytes with
      | none => simp [h2]
      | some e =>
        obtain ⟨actor, bytes⟩ := e
        cases h3 : takeU64 bytes with
        | none => simp [h2, h3]
        | some e => simp [h2, h3, leafChecked, eq_comm]
    | 1 =>
      cases h2 : takeU8 bytes with
      | none => simp [h2]
      | some e =>
        obtain ⟨level, bytes⟩ := e
        cases h3 : takeU16 bytes with
        | none => simp [h2, h3]
        | some e =>
          obtain ⟨bits, bytes⟩ := e
          cases h4 : takeU64 bytes with
          | none => simp [h2, h3, h4]
          | some e =>
            obtain ⟨len, bytes⟩ := e
            have hlen : len < u64Size := takeU64_lt h4
            cases h5 : takeArray bytes with
            | none => simp [h2, h3, h4, h5]
            | some e =>
              obtain ⟨key, bytes⟩ := e
              cases h6 : takeU64 bytes with
              | none => simp [h2, h3, h4, h5, h6]
              | some e =>
                obtain ⟨count, bytes⟩ := e
                have h16 := countOnes_le (BitVec.ofNat 16 bits)
                obtain ⟨key', len', level', bitmap', children'⟩ := ck
                simp only [h2, h3, h4, h5, h6, takeMany_eq, Option.bind_eq_bind, Option.bind_some,
                  Option.pure_def]
                by_cases hfits : count * 32 ≤ bytes.length
                · obtain ⟨names, hnames⟩ : ∃ names, names = (List.range count).map fun i =>
                    arrayOf ((bytes.drop (32 * i)).take 32) :=
                    ⟨_, rfl⟩
                  have hcount : names.length = count := by rw [hnames, length_map, length_range]
                  rw [if_neg (Nat.not_lt.2 hfits), if_pos hfits, ← hnames]
                  simp only [Option.bind_some, Option.some.injEq, reduceCtorEq, false_and, exists_const, false_or,
                    Encoded.branch.injEq]
                  constructor
                  · intro hok
                    split at hok
                    · cases hok
                    · rename_i hgood
                      push Not at hgood
                      cases hok
                      rw [hcount]
                      exact ⟨⟨rfl, rfl, rfl, rfl, rfl⟩, hgood.1, hgood.2.1.1, hgood.2.2, hlen⟩
                  · rintro ⟨⟨rfl, rfl, rfl, rfl, rfl⟩, hl, h2, hones, -⟩
                    rw [hcount] at h2 hones
                    rw [if_neg]
                    push Not
                    exact ⟨hl, ⟨h2, hones ▸ h16⟩, hones⟩
                · rw [if_pos (Nat.not_le.1 hfits), if_neg hfits]
                  simp
    | _ + 2 => simp

/-- What a scan keeps of a node. -/
structure Describes (ck : Checked) (n : ClockNode) : Prop where
  key : n.key = ck.key
  depth : n.depth = ck.level
  len : n.len = ck.len

theorem describes_of_loads (L : Loads S h n) (hfetch : S.fetch h = some bytes)
    (hck : checkRecord bytes = .ok ck) : Describes ck n := by
  cases L with
  | leaf fetch dig dec =>
    rw [hfetch] at fetch
    cases fetch
    rcases checkRecord_ok.1 hck with ⟨actor, seq, hdec, rfl⟩ | ⟨hdec, -⟩
    · rw [dec] at hdec
      cases hdec
      exact ⟨rfl, rfl, rfl⟩
    · rw [dec] at hdec
      cases hdec
  | branch fetch dig dec C sub =>
    rw [hfetch] at fetch
    cases fetch
    rcases checkRecord_ok.1 hck with ⟨actor, seq, hdec, -⟩ | ⟨hdec, -⟩
    · rw [dec] at hdec
      cases hdec
    · rw [dec, Option.some.injEq, Encoded.branch.injEq] at hdec
      obtain ⟨h1, h2, h3, h4, -⟩ := hdec
      exact ⟨h4, h1, h3⟩

/-! ## Children -/

/-- The children of a record, as a scan kept them. -/
def Children (nodes : BTreeMap Digest Checked) : List Digest → List ClockNode → Prop :=
  List.Forall₂ fun name x => ∃ child, nodes[name]? = some child ∧ Describes child x

theorem Describes.fits_iff {child : Checked} (D : Describes child x) :
    ¬(child.level ≤ ck.level ∨ (firstDifference child.key ck.key).any (· < ck.level)) ↔
      Fits ck.level ck.key x := by
  rw [not_or, Nat.not_le, Bool.not_eq_true, any_firstDifference, ← D.depth, ← D.key]
  exact ⟨fun ⟨h1, h2⟩ => ⟨h1, h2⟩, fun F => ⟨F.below, F.agree⟩⟩

/-- Children that pass the loop are collected, and their levels are further down. -/
theorem checkChildren_level {previous : Option ℕ} {r : BitVec 16 × ℕ}
    (hok : checkChildren nodes ck names bitmap len previous = .ok r) (hname : name ∈ names) :
    ∃ child, nodes[name]? = some child ∧ ck.level < child.level := by
  induction names generalizing bitmap len previous with
  | nil => cases hname
  | cons first names ih =>
    rw [checkChildren] at hok
    split at hok
    · cases hok
    · rename_i child hchild
      split at hok
      · cases hok
      · rename_i hplace
        dsimp only at hok
        split at hok
        · cases hok
        · split at hok
          · cases hok
          · rcases mem_cons.1 hname with rfl | hname
            · exact ⟨child, hchild, Nat.not_le.1 fun h => hplace (Or.inl h)⟩
            · exact ih hok hname

/-- **What the loop over the children has checked.** -/
theorem checkChildren_sound {previous : Option ℕ} (H : Children nodes names children)
    (hok : checkChildren nodes ck names bitmap len previous = .ok (bitmap', len')) :
    (∀ x ∈ children, Fits ck.level ck.key x) ∧
    children.Pairwise (fun x y => digitAt ck.level x < digitAt ck.level y) ∧
      (∀ d ∈ previous, ∀ x ∈ children, d < digitAt ck.level x) ∧
      bitmap' = children.foldl (fun bits child => bits ||| 1#16 <<< nibble child.key ck.level) bitmap ∧
      len' = len + sumLen children := by
  induction H generalizing bitmap len previous with
  | nil =>
    rw [checkChildren] at hok
    cases hok
    simp [sumLen]
  | cons hhead H ih =>
    rename_i name x names children
    obtain ⟨child, hchild, D⟩ := hhead
    rw [checkChildren, hchild] at hok
    dsimp only at hok
    split at hok
    · cases hok
    · rename_i hplace
      have hdigit : nibble child.key ck.level = digitAt ck.level x := by rw [digitAt, D.key]
      split at hok
      · cases hok
      · rename_i hprev
        split at hok
        · cases hok
        · obtain ⟨hfits, hpair, hafter, hbits, hlen⟩ := ih hok
          have hfirst : ∀ y ∈ children, digitAt ck.level x < digitAt ck.level y := by
            intro y hy
            rw [← hdigit]
            exact hafter _ rfl y hy
          refine ⟨forall_mem_cons.2 ⟨D.fits_iff.1 hplace, hfits⟩, pairwise_cons.2 ⟨hfirst, hpair⟩, ?_, ?_, ?_⟩
          · intro d hd
            have hlt : d < digitAt ck.level x := by
              rw [Option.mem_def.1 hd] at hprev
              rw [← hdigit]
              simpa using hprev
            exact forall_mem_cons.2 ⟨hlt, fun y hy => hlt.trans (hfirst y hy)⟩
          · rw [hbits, foldl_cons, D.key]
          · rw [hlen, sumLen, sumLen, map_cons, sum_cons, D.len]
            omega

/-- **Children with these properties pass the loop.** -/
theorem checkChildren_complete {previous : Option ℕ} (H : Children nodes names children)
    (hfits : ∀ x ∈ children, Fits ck.level ck.key x)
    (hpair : children.Pairwise fun x y => digitAt ck.level x < digitAt ck.level y)
    (hafter : ∀ d ∈ previous, ∀ x ∈ children, d < digitAt ck.level x) (hlen : len + sumLen children < u64Size) :
    checkChildren nodes ck names bitmap len previous =
      .ok (children.foldl (fun bits child => bits ||| 1#16 <<< nibble child.key ck.level) bitmap,
        len + sumLen children) := by
  induction H generalizing bitmap len previous with
  | nil => simp [checkChildren, sumLen]
  | cons hhead H ih =>
    rename_i name x names children
    obtain ⟨child, hchild, D⟩ := hhead
    obtain ⟨hfirst, hpair⟩ := pairwise_cons.1 hpair
    have hsum : sumLen (x :: children) = child.len + sumLen children := by
      rw [sumLen, sumLen, map_cons, sum_cons, D.len]
    have hdigit : nibble child.key ck.level = digitAt ck.level x := by rw [digitAt, D.key]
    have hplace := D.fits_iff.2 (hfits x (by simp))
    have hprev : ¬previous.any (nibble child.key ck.level ≤ ·) := by
      cases previous with
      | none => simp
      | some d =>
        have hd := hafter d rfl x (by simp)
        rw [hdigit]
        simpa using hd
    rw [hsum] at hlen
    rw [checkChildren, hchild]
    dsimp only
    rw [if_neg hplace, if_neg hprev, if_neg (by omega)]
    rw [ih (fun y hy => hfits y (mem_cons_of_mem _ hy)) hpair (fun d hd y hy => ?_) (by omega), hsum,
      foldl_cons, D.key, Nat.add_assoc]
    cases hd
    rw [hdigit]
    exact hfirst y hy

/-! ## All collected records -/

/-- The scan has collected the records of `S`. -/
structure Keeps (S : NodeReader) (nodes : BTreeMap Digest Checked) : Prop where
  kept : ∀ (h : Digest) ck, nodes[h]? = some ck → ∃ bytes, S.fetch h = some bytes ∧ S.digest bytes = h ∧
    checkRecord bytes = .ok ck
  all : ∀ h bytes, S.fetch h = some bytes → ∃ ck, nodes[h]? = some ck

/-- Every collected branch passes its check. -/
def AllChecked (nodes : BTreeMap Digest Checked) : Prop :=
  ∀ (h : Digest) ck, nodes[h]? = some ck → ck.level < 64 → checkNode nodes ck = .ok ()

theorem checkNode_ok :
    checkNode nodes ck = .ok () ↔ checkChildren nodes ck ck.children 0#16 0 none = .ok (ck.bitmap, ck.len) := by
  rw [checkNode, Outcome.bind_eq_ok]
  constructor
  · rintro ⟨⟨bits, len⟩, hok, hcheck⟩
    dsimp only at hcheck
    split at hcheck
    · cases hcheck
    · rename_i hgood
      push Not at hgood
      rw [hok, hgood.1, hgood.2]
  · intro hok
    refine ⟨_, hok, ?_⟩
    simp [pure, Except.pure]

theorem exists_forall₂ {R : Digest → ClockNode → Prop} (h : ∀ name ∈ names, ∃ x, R name x) :
    ∃ children, List.Forall₂ R names children := by
  induction names with
  | nil => exact ⟨[], List.Forall₂.nil⟩
  | cons name names ih =>
    obtain ⟨x, hx⟩ := h name (by simp)
    obtain ⟨children, H⟩ := ih fun name' h' => h name' (mem_cons_of_mem _ h')
    exact ⟨x :: children, List.Forall₂.cons hx H⟩

theorem forall₂_iff_getElem? {R : Digest → ClockNode → Prop} : List.Forall₂ R names children ↔
    children.length = names.length ∧ ∀ (j : ℕ) name x, names[j]? = some name → children[j]? = some x →
      R name x := by
  rw [List.forall₂_iff_get]
  constructor
  · rintro ⟨hlen, hall⟩
    refine ⟨hlen.symm, fun j name x hname hx => ?_⟩
    obtain ⟨hj, rfl⟩ := List.getElem?_eq_some_iff.1 hname
    obtain ⟨hj', rfl⟩ := List.getElem?_eq_some_iff.1 hx
    exact hall j hj hj'
  · rintro ⟨hlen, hall⟩
    exact ⟨hlen.symm, fun j hj hj' => hall j _ _ (getElem?_eq_getElem hj) (getElem?_eq_getElem hj')⟩

theorem Keeps.described (K : Keeps S nodes) (H : List.Forall₂ (Loads S) names children) :
    Children nodes names children := by
  refine H.imp fun name x L => ?_
  obtain ⟨bytes, hfetch⟩ : ∃ bytes, S.fetch name = some bytes := by
    cases L with
    | leaf fetch dig dec => exact ⟨_, fetch⟩
    | branch fetch dig dec C sub => exact ⟨_, fetch⟩
  obtain ⟨child, hchild⟩ := K.all name bytes hfetch
  obtain ⟨bytes', hfetch', -, hck⟩ := K.kept name child hchild
  exact ⟨child, hchild, describes_of_loads L hfetch' hck⟩

/-- Records that all pass their checks load, the deepest first. -/
theorem loads_of_allChecked (K : Keeps S nodes) (hall : AllChecked nodes) (hck : nodes[h]? = some ck) :
    ∃ n, Loads S h n := by
  induction hd : 64 - ck.level using Nat.strong_induction_on generalizing h ck with
  | _ d ih =>
    obtain ⟨bytes, hfetch, hdig, hrec⟩ := K.kept h ck hck
    rcases checkRecord_ok.1 hrec with ⟨actor, seq, hdec, rfl⟩ | ⟨hdec, hl, h2, hones, -⟩
    · exact ⟨_, Loads.leaf hfetch hdig hdec⟩
    · have hok := checkNode_ok.1 (hall h ck hck hl)
      obtain ⟨children, H⟩ : ∃ children, List.Forall₂ (Loads S) ck.children children := by
        refine exists_forall₂ fun name hname => ?_
        obtain ⟨child, hchild, hlevel⟩ := checkChildren_level hok hname
        exact ih (64 - child.level) (by omega) hchild rfl
      obtain ⟨hfits, hpair, -, hbits, hlen⟩ := checkChildren_sound (K.described H) hok
      obtain ⟨hlength, hsub⟩ := forall₂_iff_getElem?.1 H
      refine ⟨_, Loads.branch hfetch hdig hdec
        ⟨hl, h2, hones, hlength, fun x hx => (inPlace_iff hl).2 (hfits x hx), hbits.symm, ?_,
          unordered_iff.2 hpair⟩ hsub⟩
      omega

/-- A branch that loads passes its check. -/
theorem checkNode_of_loads (K : Keeps S nodes) (hck : nodes[h]? = some ck) (hl : ck.level < 64)
    (L : Loads S h n) :
    checkNode nodes ck = .ok () := by
  obtain ⟨bytes, hfetch, hdig, hrec⟩ := K.kept h ck hck
  rcases checkRecord_ok.1 hrec with ⟨actor, seq, hdec, rfl⟩ | ⟨hdec, -, -, -, hsize⟩
  · exact absurd hl (by simp [leafChecked])
  · cases L with
    | leaf fetch dig dec =>
      rw [hfetch] at fetch
      cases fetch
      rw [dec] at hdec
      cases hdec
    | branch fetch dig dec C sub =>
      rw [hfetch] at fetch
      cases fetch
      rw [dec, Option.some.injEq, Encoded.branch.injEq] at hdec
      obtain ⟨rfl, rfl, rfl, rfl, rfl⟩ := hdec
      have H := K.described (forall₂_iff_getElem?.2 ⟨C.length, sub⟩)
      have htotal := C.total
      have hfits : ∀ x ∈ _, Fits ck.level ck.key x := fun x hx => (inPlace_iff hl).1 (C.place x hx)
      rw [checkNode_ok, checkChildren_complete H hfits (unordered_iff.1 C.ordered) (by simp) (by omega), C.digits,
        Nat.zero_add, C.total]

/-- **All collected records pass their checks exactly when all of them load.** -/
theorem allChecked_iff_loads (K : Keeps S nodes) : AllChecked nodes ↔ ∀ h, h ∈ nodes → ∃ n, Loads S h n := by
  constructor
  · intro hall h hmem
    exact loads_of_allChecked K hall (getElem?_eq_some_getElem hmem)
  · intro hall h ck hck hl
    have hmem : h ∈ nodes := by
      rw [mem_iff_isSome_getElem?, hck]
      rfl
    obtain ⟨n, L⟩ := hall h hmem
    exact checkNode_of_loads K hck hl L

/-! ## Runs of a scan -/

/-- The scans that calls on a new one lead to, with the records that were pushed. Nothing is assumed
about the memory limit, and a validation may read anything when it falls back to loading. -/
inductive Scans (digest : Bytes → Digest) : List (Digest × Bytes) → ClockScan → Prop
  | start : Scans digest [] {}
  | push {records : List (Digest × Bytes)} {scan scan' : ClockScan}
  {outgrown : BTreeMap Digest Checked → Checked → Bool} {h : Digest}
      {bytes : Bytes} (H : Scans digest records scan) (hok : scan.push digest outgrown h bytes = .ok scan') :
      Scans digest (records ++ [(h, bytes)]) scan'
  | validate {records : List (Digest × Bytes)} {scan scan' : ClockScan}
      {load : Digest → Option (Result ClockTrie)} {root : Digest} (H : Scans digest records scan)
      (hok : scan.validate load root = some (.ok scan')) : Scans digest records scan'

variable {records : List (Digest × Bytes)} {scan scan' : ClockScan} {load : Digest → Option (Result ClockTrie)}
  {root : Digest}

/-- What a scan that has collected `records` knows. -/
structure Collected (digest : Bytes → Digest) (records : List (Digest × Bytes)) (scan : ClockScan) : Prop where
  keeps : ∀ nodes, scan.nodes = some nodes → Keeps (ofRecords digest records) nodes
  checked : ∀ nodes, scan.nodes = some nodes → scan.complete = true → AllChecked nodes

theorem fetch_append (h h' : Digest) : (ofRecords digest (records ++ [(h, bytes)])).fetch h' =
    ((ofRecords digest records).fetch h').or (if h = h' then some bytes else none) := by
  simp only [ofRecords, find?_append]
  cases hfind : records.find? fun r => r.1 == h' with
  | some r => simp
  | none => by_cases heq : h = h' <;> simp [heq]

theorem fetch_isSome : (∃ b, (ofRecords digest records).fetch h = some b) ↔ ∃ r ∈ records, r.1 = h := by
  simp only [ofRecords, Option.map_eq_some_iff]
  constructor
  · rintro ⟨b, r, hfind, -⟩
    exact ⟨r, mem_of_find?_eq_some hfind, by simpa using find?_some hfind⟩
  · rintro ⟨r, hr, heq⟩
    obtain ⟨r', hfind⟩ : ∃ r', records.find? (fun r' => r'.1 == h) = some r' := by
      rw [← Option.isSome_iff_exists, find?_isSome]
      exact ⟨r, hr, by simpa using heq⟩
    exact ⟨_, r', hfind, rfl⟩

theorem Keeps.mem_iff (K : Keeps (ofRecords digest records) nodes) : h ∈ nodes ↔ ∃ r ∈ records, r.1 = h := by
  rw [← @fetch_isSome digest, mem_iff_isSome_getElem?, Option.isSome_iff_exists]
  constructor
  · rintro ⟨ck, hck⟩
    obtain ⟨bytes, hfetch, -⟩ := K.kept h ck hck
    exact ⟨bytes, hfetch⟩
  · rintro ⟨bytes, hfetch⟩
    exact K.all h bytes hfetch

theorem Collected.push {outgrown : BTreeMap Digest Checked → Checked → Bool} (I : Collected digest records scan)
    (hok : scan.push digest outgrown h bytes = .ok scan') : Collected digest (records ++ [(h, bytes)]) scan' := by
  unfold ClockScan.push at hok
  split at hok
  · cases hok
  · rename_i hdig
    have hdig : digest bytes = h := not_not.1 hdig
    split at hok
    · rename_i hnone
      cases hok
      exact ⟨fun nodes hn => by simp [hnone] at hn, fun nodes hn => by simp [hnone] at hn⟩
    · rename_i nodes hnodes
      have K := I.keeps nodes hnodes
      split at hok
      · -- the record was collected before
        rename_i hmem
        cases hok
        obtain ⟨b, hb⟩ : ∃ b, (ofRecords digest records).fetch h = some b := fetch_isSome.2 (K.mem_iff.1 hmem)
        have hsame : (ofRecords digest (records ++ [(h, bytes)])).fetch = (ofRecords digest records).fetch := by
          funext h'
          rw [fetch_append]
          by_cases heq : h = h'
          · rw [← heq, hb]
            rfl
          · rw [if_neg heq, Option.or_none]
        refine ⟨fun nodes' hn => ?_, I.checked⟩
        have K' := I.keeps nodes' hn
        exact ⟨fun h' ck hck => hsame ▸ K'.kept h' ck hck, fun h' b hb => K'.all h' b (hsame ▸ hb)⟩
      · rename_i hnew
        split at hok
        · cases hok
        · rename_i hcomplete
          obtain ⟨ck, hck, hok⟩ := Outcome.bind_eq_ok.1 hok
          split at hok
          · cases hok
            exact ⟨fun nodes hn => (by cases hn), fun nodes hn => (by cases hn)⟩
          · cases hok
            have hnone : (ofRecords digest records).fetch h = none := by
              rw [← Option.not_isSome_iff_eq_none, Option.isSome_iff_exists, fetch_isSome, ← K.mem_iff]
              exact hnew
            refine ⟨fun nodes' hn => ?_, fun nodes' _ hc => absurd hc hcomplete⟩
            cases hn
            constructor
            · intro h' ck' hck'
              rw [ExtTreeMap.getElem?_insert] at hck'
              rw [fetch_append]
              by_cases heq : h = h'
              · subst heq
                simp only [compare_self, if_true, Option.some.injEq] at hck'
                rw [hnone, if_pos rfl]
                exact ⟨bytes, rfl, hdig, hck' ▸ hck⟩
              · rw [if_neg (by simpa using heq)] at hck'
                rw [if_neg heq, Option.or_none]
                exact K.kept h' ck' hck'
            · intro h' b hb
              rw [ExtTreeMap.getElem?_insert]
              rw [fetch_append] at hb
              by_cases heq : h = h'
              · exact ⟨ck, by simp [heq]⟩
              · rw [if_neg heq, Option.or_none] at hb
                rw [if_neg (by simpa using heq)]
                exact K.all h' b hb

/-- What a validation over collected records checks. -/
theorem validate_collected (hnodes : scan.nodes = some nodes) : scan.validate load root = some (.ok scan') ↔
    (scan.complete = false → AllChecked nodes) ∧ root ∈ nodes ∧ scan' = { scan with complete := true } := by
  have hforM : ((nodes.toList.map Prod.snd).filter fun node => node.level < 64).forM (checkNode nodes) = .ok () ↔
      AllChecked nodes := by
    rw [Outcome.forM_eq_ok]
    constructor
    · intro hall h ck hck hl
      refine hall ck (List.mem_filter.2 ⟨List.mem_map.2 ⟨(h, ck), ?_, rfl⟩, by simpa using hl⟩)
      exact mem_toList_iff_getElem?_eq_some.2 hck
    · intro hall ck hmem
      obtain ⟨hmap, hl⟩ := List.mem_filter.1 hmem
      obtain ⟨⟨h, ck'⟩, hin, rfl⟩ := List.mem_map.1 hmap
      exact hall h _ (mem_toList_iff_getElem?_eq_some.1 hin) (by simpa using hl)
  unfold ClockScan.validate
  rw [hnodes]
  simp only [Option.some.injEq]
  cases hc : scan.complete with
  | true =>
    by_cases hroot : root ∈ nodes
    · simpa [hroot] using eq_comm
    · simp [hroot]
  | false =>
    simp only [Bool.not_false, if_true, Outcome.bind_eq_ok, forall_const]
    constructor
    · rintro ⟨⟨⟩, hall, hrest⟩
      by_cases hroot : root ∈ nodes
      · rw [if_pos hroot] at hrest
        exact ⟨hforM.1 hall, hroot, (Outcome.pure_eq_ok.1 hrest).symm⟩
      · rw [if_neg hroot] at hrest
        cases hrest
    · rintro ⟨hall, hroot, rfl⟩
      exact ⟨(), hforM.2 hall, by simp [hroot]⟩

theorem Collected.validate (I : Collected digest records scan)
    (hok : scan.validate load root = some (.ok scan')) :
    Collected digest records scan' := by
  cases hnodes : scan.nodes with
  | none =>
    unfold ClockScan.validate at hok
    rw [hnodes] at hok
    obtain ⟨r, -, hr⟩ := Option.map_eq_some_iff.1 hok
    cases r with
    | error e => cases hr
    | ok c =>
      cases hr
      exact I
  | some nodes =>
    obtain ⟨hall, -, rfl⟩ := (validate_collected hnodes).1 hok
    refine ⟨I.keeps, fun nodes' hn _ => ?_⟩
    obtain rfl : nodes = nodes' := Option.some.inj (hnodes.symm.trans hn)
    cases hc : scan.complete with
    | true => exact I.checked nodes hnodes hc
    | false => exact hall hc

/-- **What a scan knows, whatever calls it got.** -/
theorem Scans.collected (H : Scans digest records scan) : Collected digest records scan := by
  induction H with
  | start =>
    refine ⟨fun nodes hn => ?_, fun nodes _ hc => by cases hc⟩
    cases hn
    exact ⟨fun h ck hck => by simp at hck, fun h bytes hb => by cases hb⟩
  | push _ hok ih => exact ih.push hok
  | validate _ hok ih => exact ih.validate hok

end ClockScan

/-! ## Scanning and loading -/

open ClockScan NodeReader

variable {scan : ClockScan} {records : List (Digest × Bytes)}

/-- What the records hold does not depend on the cache. -/
theorem NodeReader.Loads.of_fetch {S' : NodeReader} (L : S.Loads h n) (hdig : S.digest = S'.digest)
    (hfetch : S.fetch = S'.fetch) :
    S'.Loads h n := by
  induction L with
  | leaf fetch dig dec => exact Loads.leaf (hfetch ▸ fetch) (hdig ▸ dig) dec
  | branch fetch dig dec C sub ih => exact Loads.branch (hfetch ▸ fetch) (hdig ▸ dig) dec C ih

/-- The root loads through the cache exactly when its records hold a trie. -/
theorem load_iff_loads (hheld : ∀ site h m, S.held site h = some m → S.Loads h m) {fuel : ℕ} (hfuel : 65 ≤ fuel) :
    (∃ c, S.load fuel h = some (.ok c)) ↔ ∃ n, S.Loads h n := by
  constructor
  · rintro ⟨c, hok⟩
    obtain ⟨r, hnode, hr⟩ := Option.map_eq_some_iff.1 hok
    cases r with
    | error e => cases hr
    | ok m => exact ⟨m, (loads_of_node hheld hnode).1⟩
  · rintro ⟨n, L⟩
    have hlike : ∀ site h m x, S.held site h = some m → S.Loads h x → Alike m x := by
      intro site h m x hm L'
      rw [(hheld site h m hm).unique L']
      rfl
    obtain ⟨m, hm, -⟩ := @Loads.node_alike S n h fuel [] none L hlike rfl (by simp) (by omega)
    exact ⟨⟨some m⟩, by rw [load, hm]; rfl⟩

/-- **A scan accepts a root exactly when the root was collected and every collected record loads**, and
once the records outgrew the memory, exactly when the root loads. Accepted roots were collected and
load; a collected root is refused only when some collected record does not load. -/
theorem clockScan_exact (H : Scans digest records scan) (held : List ℕ → Digest → Option ClockNode)
    (hheld : ∀ site h m, held site h = some m → (ofRecords digest records).Loads h m) (fuel : ℕ)
    (hfuel : 65 ≤ fuel) (root : Digest) :
    let load := NodeReader.load { ofRecords digest records with held } fuel
    let accepted := ∃ scan', scan.validate load root = some (.ok scan')
    (∀ nodes, scan.nodes = some nodes →
      (accepted ↔ (∃ r ∈ records, r.1 = root) ∧ ∀ r ∈ records, ∃ c, load r.1 = some (.ok c))) ∧
      (scan.nodes = none → (accepted ↔ ∃ c, load root = some (.ok c))) ∧
      (accepted → (∃ r ∈ records, r.1 = root) ∧ ∃ c, load root = some (.ok c)) ∧
      ((∃ r ∈ records, r.1 = root) → (∀ r ∈ records, ∃ c, load r.1 = some (.ok c)) → accepted) := by
  intro load accepted
  have hloads : ∀ h, (∃ c, load h = some (.ok c)) ↔ ∃ n, (ofRecords digest records).Loads h n := by
    intro h
    have hcache : ∀ site h m, held site h = some m →
      NodeReader.Loads { ofRecords digest records with held } h m := fun site h m hm =>
      (hheld site h m hm).of_fetch rfl rfl
    refine (load_iff_loads hcache hfuel).trans ⟨?_, ?_⟩
    · rintro ⟨n, L⟩
      exact ⟨n, L.of_fetch rfl rfl⟩
    · rintro ⟨n, L⟩
      exact ⟨n, L.of_fetch rfl rfl⟩
  have hcollected : ∀ nodes, scan.nodes = some nodes →
      (accepted ↔ (∃ r ∈ records, r.1 = root) ∧ ∀ r ∈ records, ∃ c, load r.1 = some (.ok c)) := by
    intro nodes hnodes
    have K := H.collected.keeps nodes hnodes
    have hall : (scan.complete = false → AllChecked nodes) ↔ ∀ r ∈ records, ∃ c, load r.1 = some (.ok c) := by
      have hevery : AllChecked nodes ↔ ∀ r ∈ records, ∃ c, load r.1 = some (.ok c) := by
        rw [allChecked_iff_loads K]
        constructor
        · intro hall r hr
          exact (hloads r.1).2 (hall r.1 (K.mem_iff.2 ⟨r, hr, rfl⟩))
        · intro hall h hmem
          obtain ⟨r, hr, rfl⟩ := K.mem_iff.1 hmem
          exact (hloads r.1).1 (hall r hr)
      rw [← hevery]
      cases hc : scan.complete with
      | true => simpa using H.collected.checked nodes hnodes hc
      | false => simp
    constructor
    · rintro ⟨scan', hok⟩
      obtain ⟨h1, h2, -⟩ := (validate_collected hnodes).1 hok
      exact ⟨K.mem_iff.1 h2, hall.1 h1⟩
    · rintro ⟨h2, h1⟩
      exact ⟨_, (validate_collected hnodes).2 ⟨hall.2 h1, K.mem_iff.2 h2, rfl⟩⟩
  have hfallback : scan.nodes = none → (accepted ↔ ∃ c, load root = some (.ok c)) := by
    intro hnodes
    simp only [accepted, ClockScan.validate, hnodes]
    constructor
    · rintro ⟨scan', hok⟩
      obtain ⟨r, hr, hmap⟩ := Option.map_eq_some_iff.1 hok
      cases r with
      | error e => cases hmap
      | ok c => exact ⟨c, hr⟩
    · rintro ⟨c, hc⟩
      exact ⟨scan, by rw [hc]; rfl⟩
  have hpushed : (∃ c, load root = some (.ok c)) → ∃ r ∈ records, r.1 = root := by
    intro hok
    obtain ⟨n, L⟩ := (hloads root).1 hok
    cases L with
    | leaf fetch dig dec => exact fetch_isSome.1 ⟨_, fetch⟩
    | branch fetch dig dec C sub => exact fetch_isSome.1 ⟨_, fetch⟩
  refine ⟨hcollected, hfallback, ?_, ?_⟩
  · intro hacc
    cases hnodes : scan.nodes with
    | none =>
      have hok := (hfallback hnodes).1 hacc
      exact ⟨hpushed hok, hok⟩
    | some nodes =>
      obtain ⟨⟨r, hr, rfl⟩, hall⟩ := (hcollected nodes hnodes).1 hacc
      exact ⟨⟨r, hr, rfl⟩, hall r hr⟩
  · intro hroot hall
    cases hnodes : scan.nodes with
    | none =>
      obtain ⟨r, hr, rfl⟩ := hroot
      exact (hfallback hnodes).2 (hall r hr)
    | some nodes => exact (hcollected nodes hnodes).2 ⟨hroot, hall⟩

/-! ### A record that nothing needs -/

/-- A branch whose children are not among the records. -/
def strayRecord : Bytes := (Encoded.branch 0 3#16 2 ⟨0⟩ [1, 2]).encode

/-- What a scan keeps of it. -/
def strayChecked : Checked := { key := ⟨0⟩, len := 2, level := 0, bitmap := 3#16, children := [1, 2] }

/-- The scan that has collected the record of a leaf. -/
def leafScan : ClockScan :=
  { nodes := some ((∅ : BTreeMap Digest Checked).insert (lengthDigest plainRecord) (leafChecked ⟨0⟩)) }

/-- The scan that has then collected a branch without its children. -/
def strayScan : ClockScan :=
  { nodes := some (((∅ : BTreeMap Digest Checked).insert (lengthDigest plainRecord) (leafChecked ⟨0⟩)).insert
    (lengthDigest strayRecord) strayChecked) }

theorem decode_plainRecord : Encoded.decode plainRecord = some (.leaf ⟨0⟩ 5) :=
  Encoded.decode_encode (by simp [Encoded.Sized])

theorem lengthDigest_stray : lengthDigest plainRecord ≠ lengthDigest strayRecord := by decide

theorem checkRecord_stray : checkRecord strayRecord = .ok strayChecked := by
  refine checkRecord_ok.2 (Or.inr ⟨?_, by decide, by decide, by decide, by decide⟩)
  exact Encoded.decode_encode (by simp [Encoded.Sized])

theorem leafScan_scans : Scans lengthDigest [(lengthDigest plainRecord, plainRecord)] leafScan := by
  have hck : checkRecord plainRecord = .ok (leafChecked ⟨0⟩) :=
    checkRecord_ok.2 (Or.inl ⟨⟨0⟩, 5, decode_plainRecord, rfl⟩)
  have hok : ({} : ClockScan).push lengthDigest (fun _ _ => false) (lengthDigest plainRecord) plainRecord =
      .ok leafScan := by
    simp [ClockScan.push, hck, leafScan]
  exact Scans.push Scans.start hok

/-- A root is refused although it loads, because of a record that is not part of it. -/
theorem clockScan_stray :
    ∃ records, Scans lengthDigest records strayScan ∧ (lengthDigest plainRecord, plainRecord) ∈ records ∧
      (∃ c, (ofRecords lengthDigest records).load 65 (lengthDigest plainRecord) = some (.ok c)) ∧
    ∀ load scan', strayScan.validate load (lengthDigest plainRecord) ≠ some (.ok scan') := by
  refine ⟨[(lengthDigest plainRecord, plainRecord), (lengthDigest strayRecord, strayRecord)], ?_, by simp, ?_, ?_⟩
  · have hok : leafScan.push lengthDigest (fun _ _ => false) (lengthDigest strayRecord) strayRecord =
        .ok strayScan := by
      simp [ClockScan.push, leafScan, checkRecord_stray, strayScan, lengthDigest_stray]
    exact Scans.push leafScan_scans hok
  · refine ⟨⟨some (.leaf ⟨0⟩ 5 (some (lengthDigest plainRecord)))⟩, ?_⟩
    simp [load, node, readNode, ofRecords, decode_plainRecord, Except.bind, inPlace, Except.map]
  · intro load scan' hok
    have hall := ((validate_collected rfl).1 hok).1 rfl (lengthDigest strayRecord) strayChecked
      (by simp) (by decide)
    rw [checkNode_ok] at hall
    have hmissing : ∀ name : Digest, name = 1 → name ≠ lengthDigest plainRecord ∧
        name ≠ lengthDigest strayRecord := by
      rintro name rfl
      decide
    obtain ⟨h1, h2⟩ := hmissing 1 rfl
    simp [checkChildren, strayChecked, h1.symm, h2.symm] at hall

/-! ### A clock that is accepted -/

theorem ClockNode.Below.trans {y : ClockNode} (h : Below n x) (h' : Below x y) : Below n y := by
  induction h with
  | refl => exact h'
  | child hx _ ih => exact .child hx (ih h')

/-- Records under their own digests that decode are all collected. -/
theorem exists_scans (records : List (Digest × Bytes))
    (h : ∀ r ∈ records, digest r.2 = r.1 ∧ (checkRecord r.2).toBool = true) :
    ∃ nodes, Scans digest records { nodes := some nodes } := by
  induction records using List.reverseRecOn with
  | nil => exact ⟨∅, Scans.start⟩
  | append_singleton records r ih =>
    obtain ⟨nodes, H⟩ := ih fun r hr => h r (by simp [hr])
    obtain ⟨hdig, hck⟩ := h r (by simp)
    have hpush : ∃ nodes', ClockScan.push digest (fun _ _ => false) { nodes := some nodes } r.1 r.2 =
        .ok { nodes := some nodes' } := by
      by_cases hin : r.1 ∈ nodes
      · exact ⟨nodes, by simp [ClockScan.push, hdig, hin]⟩
      · cases hck' : checkRecord r.2 with
        | error e => rw [hck'] at hck; cases hck
        | ok ck => exact ⟨nodes.insert r.1 ck, by simp [ClockScan.push, hdig, hin, hck', bind, Except.bind]⟩
    obtain ⟨nodes', hok⟩ := hpush
    exact ⟨nodes', H.push hok⟩

/-- A root is accepted that was pushed before the branch and the leaves below it. -/
theorem clockScan_exact_fork : (∃ rest, forkClock.records lengthDigest =
      (forkRoot.hash lengthDigest, (forkRoot.encoded lengthDigest).encode) :: rest) ∧
    ∃ nodes scan', Scans lengthDigest (forkClock.records lengthDigest) { nodes := some nodes } ∧
      ClockScan.validate { nodes := some nodes }
        (NodeReader.load (ofRecords lengthDigest (forkClock.records lengthDigest)) 65)
          (forkRoot.hash lengthDigest) = some (.ok scan') := by
  have hfirst : ∃ rest, forkClock.records lengthDigest =
      (forkRoot.hash lengthDigest, (forkRoot.encoded lengthDigest).encode) :: rest := by
    rw [ClockTrie.records, forkClock_root]
    exact ⟨_, by rw [forkRoot, Option.toList_some, ClockNode.visitFrom]⟩
  obtain ⟨m, R⟩ := forkClock_refines
  have hseq : ∀ e ∈ forkClock.iter, e.2 < 2 ^ 64 := by simp [forkClock_iter]
  have hlen : forkClock.len < 2 ^ 64 := by simp [ClockTrie.len, forkClock_root, forkRoot, ClockNode.len]
  have hhonest : forkClock.Honest lengthDigest :=
    ClockTrie.honest_run forkProgram (fun _ => ClockTrie.honest_new) 0
  have K := hhonest.knownTo R.shaped hseq hlen
  have hck : ∀ b ∈ forkRecords, (checkRecord b).toBool = true := by decide +kernel
  obtain ⟨nodes, H⟩ := exists_scans (forkClock.records lengthDigest) fun r hr => by
    obtain ⟨n, hn, x, hx, heq⟩ := ClockTrie.mem_records.1 hr
    refine ⟨?_, hck _ (forkClock_stored ⟨r, hr, rfl⟩)⟩
    rw [heq]
    exact (hhonest n hn x hx).symm
  have hloads : ∀ r ∈ forkClock.records lengthDigest, ∃ c,
      (ofRecords lengthDigest (forkClock.records lengthDigest)).load 65 r.1 = some (.ok c) := by
    intro r hr
    obtain ⟨n, hn, x, hx, rfl⟩ := ClockTrie.mem_records.1 hr
    obtain ⟨m, L, -⟩ := ClockNode.loads_of_records (S := ofRecords lengthDigest (forkClock.records lengthDigest))
      (hx.shape (R.shaped n hn)) (fun y hy => ClockTrie.sized R.shaped hn hseq hlen (hx.trans hy))
      (fun y hy => hhonest n hn y (hx.trans hy)) fun y hy =>
      ClockTrie.fetch_ofRecords forkClock_injOn K (ClockTrie.mem_records.2 ⟨n, hn, y, hx.trans hy, rfl⟩)
    exact (load_iff_loads (fun _ _ _ hm => by cases hm) le_rfl).2 ⟨m, L⟩
  obtain ⟨rest, hrest⟩ := hfirst
  have hexact := clockScan_exact H (fun _ _ => none) (fun _ _ _ hm => by cases hm) 65 le_rfl
    (forkRoot.hash lengthDigest)
  obtain ⟨scan', hok⟩ := hexact.2.2.2 ⟨_, by rw [hrest]; exact mem_cons_self, rfl⟩ hloads
  exact ⟨⟨rest, hrest⟩, nodes, scan', H, hok⟩

end Irokle
