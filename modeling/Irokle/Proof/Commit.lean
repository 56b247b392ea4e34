import Irokle.Proof.Build
import Irokle.Proof.Pending

/-!
# Committing a batch

`admit_batch_locked` writes the entries of a batch one by one and the topic's frontier, clock,
fingerprint and state once at the end. What it leaves reads like the records the batch was built
towards, one append after the other.

* `Grows.put` — writing the entries is growing, apart from what is written at the end;
* `newEntries_grows` — every entry passes the chain checks and is new;
* `Grows.heads` — the frontier computed at once is the one kept op by op;
* `RecordsOK.of_agree` — records that read alike are sound alike.
-/

namespace Irokle

open Std Outcome Causal List ExtTreeSet

/-- Every read of the two records gives the same. -/
structure Records.Agree (E : Env) (r r' : Records) : Prop where
  ops : r'.ops = r.ops
  metas : r'.metas = r.metas
  topicOps : r'.topicOps = r.topicOps
  children : r'.children = r.children
  actorBySeq : r'.actorBySeq = r.actorBySeq
  actorTip : r'.actorTip = r.actorTip
  maxGeneration : r'.maxGeneration = r.maxGeneration
  heads : ∀ t, r'.headsOf t = r.headsOf t
  clock : ∀ t, r'.clockOf t = r.clockOf t
  state : ∀ t, r'.topicState t = r.topicState t
  fingerprint : ∀ t, r'.topicFingerprintOf E t = r.topicFingerprintOf E t
  stamped : ∀ (t : TopicId) d, r.topicFingerprint[t]? = some d → ∃ d', r'.topicFingerprint[t]? = some d'

variable {E : Env} {n : ℕ} {r r' r₀ rv : Records} {o : Overlay} {reset : Bool} {t : TopicId} {g x y op : Op}
  {γ : TopicGenesis} {ps : Projections} {m : OpMeta} {id : OpId} {st : TopicState} {clk : ActorClock}
  {l : List (Op × OpMeta)}

theorem Records.Agree.refl (r : Records) : r.Agree E r :=
  ⟨rfl, rfl, rfl, rfl, rfl, rfl, rfl, fun _ => rfl, fun _ => rfl, fun _ => rfl, fun _ => rfl, fun _ d h => ⟨d, h⟩⟩

theorem Records.Agree.admitted (h : r.Agree E r') : r'.admitted t = r.admitted t := by
  unfold Records.admitted
  rw [h.ops]

theorem RecordsOK.of_agree (R : RecordsOK E r) (h : r.Agree E r') : RecordsOK E r' where
  opId := by
    rw [h.ops]
    exact R.opId
  hasMeta := by
    rw [h.ops, h.metas]
    exact R.hasMeta
  hasOp := by
    rw [h.ops, h.metas]
    exact R.hasOp
  topicOps t id := by
    rw [h.admitted, ← R.topicOps, Records.listOpIds, Records.listOpIds, h.topicOps]
  children d c := by
    rw [h.ops, ← R.children, Records.childrenOf, Records.childrenOf, h.children]
  childKeys := by
    rw [h.children]
    exact R.childKeys
  slots t a s id := by
    rw [h.admitted, h.actorBySeq]
    exact R.slots t a s id
  tips t a s id := by
    rw [h.admitted, h.actorTip]
    exact R.tips t a s id
  clock t a s hs := by
    rw [h.admitted, h.clock]
    exact R.clock t a s hs
  clockPos t := by
    rw [h.clock]
    exact R.clockPos t
  heads t id := by
    rw [h.admitted, h.heads]
    exact R.heads t id
  maxGeneration t := by
    rw [h.admitted, Records.maxGenerationOf, h.maxGeneration]
    exact R.maxGeneration t
  state t st hst := by
    rw [h.admitted]
    exact R.state t st (h.state t ▸ hst)
  noState t hst := by
    rw [h.admitted]
    exact R.noState t (h.state t ▸ hst)
  fingerprint t := by
    rw [h.fingerprint, h.heads, h.clock]
    exact R.fingerprint t
  stamped t st hst := by
    obtain ⟨d, hd⟩ := R.stamped t st (h.state t ▸ hst)
    exact h.stamped t d hd

/-! ## Writing the entries -/

/-- What `write_entry` does to the records. -/
def Records.put (r : Records) (e : Op × OpMeta) : Records :=
  { r.writeEntry e.1 e.2 with metas := r.metas.insert e.1.id e.2, ops := r.ops.insert e.1.id e.1 }

/-- Writing the entries is growing, apart from what a batch writes once at its end. -/
theorem Grows.put (h : Grows E t r l rv) : l.foldl Records.put r =
    { rv with
      actorClock := r.actorClock
      heads := r.heads
      topicFingerprint := r.topicFingerprint
      topics := r.topics } := by
  induction h with
  | nil => rfl
  | snoc _ _ _ ih =>
    rw [foldl_append, ih]
    rfl

/-- The other topics are as before, and this one has the clock of the entries. -/
theorem Grows.other (h : Grows E t r l rv) {t' : TopicId} (hne : t ≠ t') :
    rv.headsOf t' = r.headsOf t' ∧ rv.clockOf t' = r.clockOf t' ∧ rv.topicState t' = r.topicState t' ∧
      rv.topicFingerprintOf E t' = r.topicFingerprintOf E t' ∧
      rv.topicFingerprint[t']? = r.topicFingerprint[t']? := by
  induction h with
  | nil => exact ⟨rfl, rfl, rfl, rfl, rfl⟩
  | snoc _ ht _ ih =>
    have hne' := ht ▸ hne
    rw [headsOf_append, clockOf_append, topicState_append, topicFingerprintOf_append, if_neg hne', if_neg hne',
      if_neg hne', if_neg hne']
    refine ⟨ih.1, ih.2.1, ih.2.2.1, ih.2.2.2.1, Eq.trans ?_ ih.2.2.2.2⟩
    simp [Records.append, ExtTreeMap.getElem?_insert, hne']

theorem Grows.clock (h : Grows E t r l rv) :
    rv.clockOf t = l.foldl (fun c e => c.observe e.2.actorId e.2.actorSeq) (r.clockOf t) := by
  induction h with
  | nil => rfl
  | snoc _ ht _ ih =>
    rw [foldl_append, clockOf_append, if_pos ht, ih]
    rfl

/-- An op that was grown in was not there before. -/
theorem Grows.new (h : Grows E t r l rv) : ∀ e ∈ l, r.ops[e.1.id]? = none := by
  induction h with
  | nil => simp
  | @snoc l rv op clk st h _ A ih =>
    intro e he
    rcases mem_append.1 he with he | he
    · exact ih e he
    · rw [mem_singleton.1 he]
      cases hx : r.ops[op.id]? with
      | none => rfl
      | some x =>
        have := h.getElem?_ops.2 (Or.inl hx)
        rw [A.new] at this
        cases this

/-- A dependency of a grown op is held before or grown in as well. -/
theorem Grows.deps (h : Grows E t r l rv) :
    ∀ e ∈ l, ∀ d ∈ e.1.body.deps, (∃ x, r.ops[d]? = some x) ∨ ∃ e' ∈ l, e'.1.id = d := by
  induction h with
  | nil => simp
  | @snoc l rv op clk st h _ A ih =>
    intro e he d hd
    rcases mem_append.1 he with he | he
    · exact (ih e he d hd).imp_right fun ⟨e', he', hid⟩ => ⟨e', mem_append_left _ he', hid⟩
    · rw [mem_singleton.1 he] at hd
      obtain ⟨g, γ, B, -⟩ := A.branch
      obtain ⟨x, hx, rfl⟩ := B.closed op (Set.mem_insert op _) d hd
      rcases hx with rfl | hx
      · exact Or.inr ⟨(x, metaOf x clk), by simp, rfl⟩
      · exact (h.getElem?_ops.1 hx.1).imp (fun hx => ⟨x, hx⟩)
          fun ⟨e', he', hx, hid⟩ => ⟨e', mem_append_left _ he', hx ▸ hid⟩

/-- The frontier computed from all entries at once is the one kept op by op. -/
theorem Grows.heads (R : RecordsOK E r) (h : Grows E t r l rv) :
    rv.headsOf t = l.foldl (fun h e => h.insert e.1.id) (r.headsOf t) \
      l.foldl (fun c e => c ∪ e.1.body.deps) (∅ : BTreeSet OpId) := by
  induction h with
  | nil =>
    refine ext_mem fun id => ?_
    simp [mem_diff_iff]
  | @snoc l rv op clk st h ht A ih =>
    rw [headsOf_append, if_pos ht, ih, foldl_append, foldl_append]
    -- no op before `op` depends on it, so it stays once it is added
    have hconsumed : ∀ (l : List (Op × OpMeta)) (c : BTreeSet OpId),
      op.id ∈ l.foldl (fun c e => c ∪ e.1.body.deps) c →
        op.id ∈ c ∨ ∃ e ∈ l, op.id ∈ e.1.body.deps := by
      intro l
      induction l with
      | nil => exact fun c hc => Or.inl hc
      | cons e l ih =>
        intro c hc
        rcases ih _ hc with hc | ⟨e', he', hmem⟩
        · rcases ExtTreeSet.mem_union_iff.1 hc with hc | hc
          · exact Or.inl hc
          · exact Or.inr ⟨e, by simp, hc⟩
        · exact Or.inr ⟨e', by simp [he'], hmem⟩
    have hnot : op.id ∉ l.foldl (fun c e => c ∪ e.1.body.deps) (∅ : BTreeSet OpId) := by
      intro hc
      rcases hconsumed l ∅ hc with hc | ⟨e, he, hmem⟩
      · simp at hc
      · have hx := h.getElem?_ops.2 (Or.inr ⟨e, he, rfl, rfl⟩)
        exact A.fresh (h.ok R) hx hmem
    have hself : op.id ∉ op.body.deps := by
      obtain ⟨g, γ, B, -⟩ := A.branch
      intro hmem
      obtain ⟨x, hx, hid, hlt⟩ := (B.links op (Set.mem_insert op _)).deps _ hmem
      rw [B.injOn hx (Set.mem_insert op _) hid] at hlt
      exact lt_irrefl _ hlt
    refine ext_mem fun id => ?_
    simp only [mem_insert, mem_diff_iff, ExtTreeSet.mem_union_iff, foldl_cons,
      foldl_nil, Std.compare_eq_iff_eq]
    constructor
    · rintro (rfl | ⟨⟨hin, hc⟩, hd⟩)
      · exact ⟨Or.inl rfl, by simp [hnot, hself]⟩
      · exact ⟨Or.inr hin, by simp [hc, hd]⟩
    · rintro ⟨rfl | hin, hc⟩
      · exact Or.inl rfl
      · push Not at hc
        exact Or.inr ⟨⟨hin, hc.1⟩, hc.2⟩

/-! ## The chain checks -/

/-- An appended op takes the position after its actor's tip. -/
theorem Appends.position (R : RecordsOK E r) (A : Appends E r op clk st) :
    match r.actorTip[(op.body.topicId, op.body.actorId)]? with
    | some (seq, id) => op.body.actorSeq = seq + 1 ∧ op.body.actorPrev = some id
    | none => op.body.actorSeq = 1 ∧ op.body.actorPrev = none := by
  obtain ⟨g, γ, B, -⟩ := A.branch
  have L := B.links op (Set.mem_insert op _)
  have hprev : ∀ p, op.body.actorPrev = some p → ∃ x ∈ r.admitted op.body.topicId, x.id = p ∧
      x.body.actorId = op.body.actorId ∧ x.body.actorSeq + 1 = op.body.actorSeq := by
    intro p hp
    obtain ⟨-, x, hx, hrest⟩ := L.next p hp
    rcases hx with rfl | hx
    · omega
    · exact ⟨x, hx, hrest⟩
  split
  · rename_i seq id htip
    obtain ⟨⟨y, hy, rfl, hya, rfl⟩, hmax⟩ := (R.tips _ _ _ _).1 htip
    have hlt := A.lt_seq R hy hya
    have hy1 : 1 ≤ y.body.actorSeq := (B.links y (Set.mem_insert_of_mem _ hy)).one_le_seq
    cases hp : op.body.actorPrev with
    | none =>
      have := L.first hp
      omega
    | some p =>
      obtain ⟨x, hx, rfl, hxa, hseq⟩ := hprev p hp
      have hle := hmax x hx hxa
      have hxy : x = y := B.slots x (Set.mem_insert_of_mem _ hx) y (Set.mem_insert_of_mem _ hy)
        (hxa.trans hya.symm) (by omega)
      subst hxy
      exact ⟨hseq.symm, rfl⟩
  · rename_i htip
    cases hp : op.body.actorPrev with
    | none => exact ⟨L.first hp, rfl⟩
    | some p =>
      obtain ⟨x, hx, -, hxa, -⟩ := hprev p hp
      obtain ⟨y, hy, hya, hmax⟩ : ∃ y ∈ r.admitted op.body.topicId, y.body.actorId = op.body.actorId ∧
          ∀ z ∈ r.admitted op.body.topicId, z.body.actorId = op.body.actorId →
            z.body.actorSeq ≤ y.body.actorSeq := by
        have hfin : {z | z ∈ r.admitted op.body.topicId ∧ z.body.actorId = op.body.actorId}.Finite :=
          (R.finite _).subset fun z hz => hz.1
        obtain ⟨y, hy, hmax⟩ := Set.exists_max_image _ (fun z => z.body.actorSeq) hfin ⟨x, hx, hxa⟩
        exact ⟨y, hy.1, hy.2, fun z hz hza => hmax z ⟨hz, hza⟩⟩
      rw [(R.tips _ _ y.body.actorSeq y.id).2 ⟨⟨y, hy, rfl, hya, rfl⟩, hmax⟩] at htip
      cases htip

/-- Nothing of the op is held: no record, no child, and its slot is free. -/
structure Vacant (r : Records) (op : Op) : Prop where
  ops : r.ops.contains op.id = false
  metas : r.metas.contains op.id = false
  slot : r.actorBySeq[(op.body.topicId, op.body.actorId, op.body.actorSeq)]? = none
  children : r.children.contains op.id = false

theorem Vacant.not_accounted (h : Vacant r op) : r.accounted (metaOf op clk) = false := by
  simp [Records.accounted, metaOf, h.ops, h.metas, h.slot, h.children]

/-- An op of which nothing is held is checked against the tip of its actor. -/
theorem Vacant.checkEntry_eq (h : Vacant r op) {tips : BTreeMap (TopicId × ActorId) (ℕ × OpId)}
    (hpos : nextActorPosition
      (tips[(op.body.topicId, op.body.actorId)]?.or r.actorTip[(op.body.topicId, op.body.actorId)]?) =
        .ok (op.body.actorSeq, op.body.actorPrev)) :
    checkEntry r tips op (metaOf op clk) = .ok (some true) := by
  have hnew : r.ops[op.id]? = none := by
    have hop := h.ops
    rwa [ExtTreeMap.contains_eq_isSome_getElem?, Option.isSome_eq_false_iff, Option.isNone_iff_eq_none] at hop
  unfold checkEntry
  simp only [metaOf, hnew, h.ops, h.metas, h.slot, h.children, Option.any_none, refuseIf,
    Bool.false_eq_true, if_false, Bool.false_and, Bool.or_self, ok_bind, bind_pure_comp]
  cases htip : tips[(op.body.topicId, op.body.actorId)]?.or r.actorTip[(op.body.topicId, op.body.actorId)]? with
  | none =>
    rw [htip] at hpos
    obtain ⟨hseq, hprev⟩ := Prod.mk.injEq .. ▸ Except.ok.inj hpos
    simp [← hseq, ← hprev, Functor.map, Except.map]
  | some tip =>
    obtain ⟨seq, id⟩ := tip
    rw [htip] at hpos
    obtain ⟨next, hnext, heq⟩ := bind_eq_ok.1 hpos
    obtain ⟨rfl, hprev⟩ := Prod.mk.injEq .. ▸ pure_eq_ok.1 heq
    have hsucc : checkedSucc seq = some op.body.actorSeq := by
      unfold checkedNext at hnext
      split at hnext
      · rename_i hs
        rw [hs, Except.ok.inj hnext]
      · cases hnext
    simp [hsucc, ← hprev, Functor.map, Except.map]

/-- An id that is not stored is not accounted for. -/
theorem RecordsOK.vacant (R : RecordsOK E r) (hnew : r.ops[op.id]? = none)
    (hslot : ∀ x ∈ r.admitted op.body.topicId, x.body.actorId = op.body.actorId →
      x.body.actorSeq ≠ op.body.actorSeq) : Vacant r op := by
  have hop : r.ops.contains op.id = false := by
    rw [ExtTreeMap.contains_eq_isSome_getElem?, hnew]
    rfl
  refine ⟨hop, R.contains_meta.trans hop, ?_, ?_⟩
  · cases h : r.actorBySeq[(op.body.topicId, op.body.actorId, op.body.actorSeq)]? with
    | none => rfl
    | some id =>
      obtain ⟨x, hx, -, ha, hs⟩ := (R.slots _ _ _ _).1 h
      exact absurd hs (hslot x hx ha)
  · rw [Bool.eq_false_iff]
    intro hc
    obtain ⟨c, hmem⟩ := R.childKeys.mem_iff.1 (ExtTreeMap.mem_iff_contains.2 hc)
    obtain ⟨x, hx, -, hdep⟩ := (R.children _ _).1 hmem
    obtain ⟨y, hy, hid⟩ := R.closed x.body.topicId x ⟨hx, rfl⟩ op.id hdep
    have hy' := hy.1
    rw [show y.id = op.id from hid, hnew] at hy'
    cases hy'

/-- Before the growth the slot of a grown op is free. -/
theorem Grows.free (R : RecordsOK E r) (h : Grows E t r l rv) (A : Appends E rv op clk st) :
    ∀ x ∈ r.admitted op.body.topicId, x.body.actorId = op.body.actorId → x.body.actorSeq ≠ op.body.actorSeq :=
  fun _ hx ha => (A.lt_seq (h.ok R) ⟨h.getElem?_ops.2 (Or.inl hx.1), hx.2⟩ ha).ne

/-- The check of one entry against the chain and the entries before it. -/
theorem checkEntry_append (R : RecordsOK E r) (h : Grows E t r l rv) (A : Appends E rv op clk st)
    (ht : op.body.topicId = t) {tips : BTreeMap (TopicId × ActorId) (ℕ × OpId)}
    (htips : ∀ a : ActorId, tips[(t, a)]?.or r.actorTip[(t, a)]? = rv.actorTip[(t, a)]?) :
    checkEntry r tips op (metaOf op clk) = .ok (some true) := by
  have hnew : r.ops[op.id]? = none := by
    cases hx : r.ops[op.id]? with
    | none => rfl
    | some x =>
      have := h.getElem?_ops.2 (Or.inl hx)
      rw [A.new] at this
      cases this
  have hpos := A.position (h.ok R)
  obtain ⟨g, γ, B, -⟩ := A.branch
  have hbound := (B.links op (Set.mem_insert op _)).bounded.2
  subst ht
  refine (R.vacant hnew (h.free R A)).checkEntry_eq ?_
  rw [htips]
  cases htip : rv.actorTip[(op.body.topicId, op.body.actorId)]? with
  | none =>
    rw [htip] at hpos
    simp [nextActorPosition, hpos.1, hpos.2]
  | some tip =>
    obtain ⟨seq, id⟩ := tip
    rw [htip] at hpos
    have hsucc : checkedSucc seq = some (seq + 1) := checkedSucc_eq_some.2 ⟨by omega, rfl⟩
    simp [nextActorPosition, checkedNext, hpos.1, hpos.2, hsucc]

theorem newEntries_cons {tips : BTreeMap (TopicId × ActorId) (ℕ × OpId)} {rest : List (Op × OpMeta)}
    {appends : Bool} {clk : ActorClock} (hcheck : checkEntry r tips op (metaOf op clk) = .ok (some appends)) :
    newEntries r op.body.topicId ((op, metaOf op clk) :: rest) tips = (newEntries r op.body.topicId rest
      (if appends then tips.insert (op.body.topicId, op.body.actorId) (op.body.actorSeq, op.id) else tips)).map
        ((op, metaOf op clk) :: ·) := by
  have htopic : refuseIf ((metaOf op clk).topicId ≠ op.body.topicId) .topicMismatch = .ok () :=
    refuseIf_eq_ok.2 (not_not.2 rfl)
  simp only [newEntries, htopic, hcheck, ok_bind]
  cases appends with
  | false =>
    rw [if_neg (by simp)]
    cases newEntries r op.body.topicId rest tips <;> rfl
  | true =>
    rw [if_pos rfl]
    change (newEntries r op.body.topicId rest
      (tips.insert (op.body.topicId, op.body.actorId) (op.body.actorSeq, op.id)) >>= _) = _
    cases newEntries r op.body.topicId rest
      (tips.insert (op.body.topicId, op.body.actorId) (op.body.actorSeq, op.id)) <;> rfl

/-- Every entry passes the chain checks and is new. -/
theorem newEntries_grows (R : RecordsOK E r) (h : Grows E t r l rv) :
    ∃ tips : BTreeMap (TopicId × ActorId) (ℕ × OpId),
      (∀ a : ActorId, tips[(t, a)]?.or r.actorTip[(t, a)]? = rv.actorTip[(t, a)]?) ∧
      ∀ rest, newEntries r t (l ++ rest) ∅ = (newEntries r t rest tips).map (l ++ ·) := by
  induction h with
  | nil =>
    refine ⟨∅, by simp, fun rest => ?_⟩
    rw [nil_append]
    cases newEntries r t rest ∅ <;> rfl
  | @snoc l rv op clk st h ht A ih =>
    obtain ⟨tips, htips, hrest⟩ := ih
    refine ⟨tips.insert (op.body.topicId, op.body.actorId) (op.body.actorSeq, op.id), fun a => ?_, fun rest => ?_⟩
    · rw [(h.ok R).actorTip_append A]
      simp only [ExtTreeMap.getElem?_insert, Std.compare_eq_iff_eq, Prod.mk.injEq]
      split
      · rfl
      · exact htips a
    · subst ht
      rw [append_assoc, hrest, singleton_append, newEntries_cons (checkEntry_append R h A rfl htips), if_pos rfl]
      cases newEntries r op.body.topicId rest
        (tips.insert (op.body.topicId, op.body.actorId) (op.body.actorSeq, op.id)) <;> simp [Except.map]

theorem newEntries_eq (R : RecordsOK E r) (h : Grows E t r l rv) : newEntries r t l ∅ = .ok l := by
  obtain ⟨tips, -, hrest⟩ := newEntries_grows R h
  have := hrest []
  rw [append_nil] at this
  simpa [newEntries, Except.map] using this

theorem ensureDepsResolvable_eq (R : RecordsOK E r) (h : Grows E t r l rv)
    (hmeta : ∀ e ∈ l, e.2.deps = e.1.body.deps) : ensureDepsResolvable r l = .ok () := by
  unfold ensureDepsResolvable
  refine forM_eq_ok.2 fun e he => forM_eq_ok.2 fun d hd => refuseIf_eq_ok.2 ?_
  rintro ⟨hbatch, hres⟩
  rw [mem_toList, hmeta e he] at hd
  rcases h.deps e he d hd with hx | ⟨e', he', rfl⟩
  · rw [R.depResolvable_iff.2 hx] at hres
    cases hres
  · exact hbatch (by simpa using ⟨e'.1, ⟨e'.2, he'⟩, rfl⟩)

/-! ## The checks of a batch -/

/-- The batch `b` grows the records `r` to `rv`, in the topic `t`. -/
structure Batched (E : Env) (r : Records) (t : TopicId) (b : AdmittedBatch) (rv : Records) : Prop where
  topicId : b.topicId = t
  grows : Grows E t r b.entries rv
  heads : b.heads = rv.headsOf t
  expectedHeads : b.expectedHeads = r.headsOf t
  expectedState : b.expectedTopicState = r.topicState t
  newState : ∀ st, b.topicState = some st → st.topicId = t ∧ st.heads = b.heads
  state : rv.topicState t = (b.topicState.or (r.topicState t)).map fun st => { st with heads := b.heads }

/-- Why a batch that was built on these records is not committed. -/
inductive CommitFails (reserve : ℕ → Result Unit) (b : AdmittedBatch) : Error → Prop
  | limit {e : Error} (h : e.isLimit = true) : CommitFails reserve b e
  | fault {k : ℕ} {e : Error} (h : reserve k = .error e) : CommitFails reserve b e
  | effects {e : Error} (h : b.effects.syncObligations ≠ []) (he : e = .topicMismatch ∨ ∃ m, e = .storage m) :
      CommitFails reserve b e

variable {K : Prop} {inner : MemoryInner} {b : AdmittedBatch} {reserve : ℕ → Result Unit}
  {quota : Option StagingQuota}

/-- Each entry is stored with its metadata. -/
theorem Grows.getElem?_metas (h : Grows E t r l rv) : ∀ e ∈ l, rv.metas[e.1.id]? = some e.2 := by
  induction h with
  | nil => simp
  | @snoc l rv op clk st h _ A ih =>
    intro e he
    simp only [Records.append, ExtTreeMap.getElem?_insert, Std.compare_eq_iff_eq]
    rcases mem_append.1 he with he | he
    · rw [if_neg, ih e he]
      intro hid
      have hstored : rv.ops[op.id]? = some e.1 := h.getElem?_ops.2 (Or.inr ⟨e, he, rfl, hid.symm⟩)
      rw [A.new] at hstored
      cases hstored
    · rw [mem_singleton.1 he, if_pos rfl]

theorem Grows.metaOf (h : Grows E t r l rv) : ∀ e ∈ l, ∃ clk, e.2 = Irokle.metaOf e.1 clk := by
  induction h with
  | nil => simp
  | @snoc l rv op clk st _ _ _ ih =>
    intro e he
    rcases mem_append.1 he with he | he
    · exact ih e he
    · rw [mem_singleton.1 he]
      exact ⟨clk, rfl⟩

theorem mergedObligation_post {existing : Option SyncObligation} {o : SyncObligation} :
    Post (mergedObligation existing o) (fun _ => True) fun e => ∃ m, e = .storage m := by
  unfold mergedObligation
  dsimp only
  split
  · rename_i e he
    split at he
    · split at he
      · cases he
        exact Post.error ⟨_, rfl⟩
      · cases he
    · cases he
  · exact Post.ok trivial
  · split
    · exact Post.ok trivial
    · split
      · exact Post.error ⟨_, rfl⟩
      · exact Post.ok trivial
    · exact Post.error ⟨_, rfl⟩

theorem mergedEffects_post {v : Evidence} {genesis : Option OpId} {obligations : List SyncObligation}
    {effects : BTreeMap (PeerId × ObligationKind) SyncObligation} :
    Post (mergedEffects v t genesis obligations effects) (fun res => obligations = [] → res = effects)
      fun e => obligations ≠ [] ∧ (e = .topicMismatch ∨ ∃ m, e = .storage m) := by
  induction obligations generalizing effects with
  | nil => exact Post.ok fun _ => rfl
  | cons o rest ih =>
    have ih' : ∀ effects, Post (mergedEffects v t genesis rest effects)
      (fun res => o :: rest = [] → res = effects)
        fun e => o :: rest ≠ [] ∧ (e = .topicMismatch ∨ ∃ m, e = .storage m) := fun effects =>
      ih.mono (fun _ _ h => by cases h) fun e h => ⟨by simp, h.2⟩
    unfold mergedEffects
    refine refuseIf_bind (fun _ => ⟨by simp, Or.inl rfl⟩) fun _ => ?_
    split
    · exact (ih' effects).mono (fun _ _ h => by cases h) fun _ h => h
    · have hmerge : ∀ existing, Post (mergedObligation existing o) (fun _ => True)
          fun e => o :: rest ≠ [] ∧ (e = .topicMismatch ∨ ∃ m, e = .storage m) := fun existing =>
        mergedObligation_post.mono (fun _ h => h) fun e h => ⟨by simp, Or.inr h⟩
      dsimp only
      split
      · exact (hmerge _).bind fun _ _ => (ih' _).mono (fun _ _ h => by cases h) fun _ h => h
      · exact (hmerge _).bind fun _ _ => (ih' _).mono (fun _ _ h => by cases h) fun _ h => h

/-- The shape checks of a batch pass. -/
theorem Batched.validateBatch (R : RecordsOK E r) (H : Batched E r t b rv) : validateBatch b = .ok () := by
  have hexpected : ∀ st, b.expectedTopicState = some st → st.topicId = t := by
    intro st hst
    obtain ⟨g, γ, B, hst'⟩ := R.state t st (H.expectedState ▸ hst)
    exact hst'.topicId.trans B.root_topic
  unfold Irokle.validateBatch
  simp only [bind_eq_ok, refuseIf_eq_ok, exists_const]
  refine ⟨?_, ?_, ?_, forM_eq_ok.2 fun e he => ?_⟩
  · cases h : b.expectedTopicState with
    | none => simp
    | some st => simp [hexpected st h, H.topicId]
  · cases h : b.topicState with
    | none => simp
    | some st => simp [(H.newState st h).1, H.topicId]
  · cases h : b.topicState with
    | none => simp
    | some st => simp [(H.newState st h).2]
  · obtain ⟨clk, hclk⟩ := H.grows.metaOf e he
    have ht := H.grows.topic e he
    simp only [bind_eq_ok, refuseIf_eq_ok, exists_const]
    refine ⟨?_, ?_⟩
    · simp [hclk, Irokle.metaOf, ht, H.topicId]
    · simp [hclk, Irokle.metaOf, metaMatches]

theorem Grows.not_accounted (R : RecordsOK E r) (h : Grows E t r l rv) : ∀ e ∈ l, r.accounted e.2 = false := by
  induction h with
  | nil => simp
  | @snoc l rv op clk st h ht A ih =>
    intro e he
    rcases mem_append.1 he with he | he
    · exact ih e he
    · rw [mem_singleton.1 he]
      have hnew := (h.snoc ht A).new (op, Irokle.metaOf op clk) (by simp)
      exact (R.vacant hnew (h.free R A)).not_accounted

theorem Batched.validateHeads (R : RecordsOK E r) (H : Batched E r t b rv) :
    validateHeads b r.accounted = .ok () := by
  have hall : (b.entries.filter fun e => !r.accounted e.2) = b.entries :=
    filter_eq_self.2 fun e he => by simp [H.grows.not_accounted R e he]
  unfold Irokle.validateHeads
  rw [hall]
  refine refuseIf_eq_ok.2 (not_not.2 ?_)
  rw [H.expectedHeads, H.heads, H.grows.heads R]

/-- Every check of the storage that reads the history passes, and every entry is written. -/
structure StorageChecks (r : Records) (b : AdmittedBatch) : Prop where
  batch : validateBatch b = .ok ()
  heads : r.headsOf b.topicId = b.expectedHeads
  state : r.topicState b.topicId = b.expectedTopicState
  frontier : validateHeads b r.accounted = .ok ()
  entries : newEntries r b.topicId b.entries ∅ = .ok b.entries
  deps : ensureDepsResolvable r b.entries = .ok ()

/-- **A batch built on these records passes every check.** -/
theorem Batched.checks (R : RecordsOK E r) (H : Batched E r t b rv) : StorageChecks r b where
  batch := H.validateBatch R
  heads := H.topicId ▸ H.expectedHeads.symm
  state := H.topicId ▸ H.expectedState.symm
  frontier := H.validateHeads R
  entries := H.topicId ▸ newEntries_eq R H.grows
  deps := ensureDepsResolvable_eq R H.grows fun e he => by
    obtain ⟨clk, hclk⟩ := H.grows.metaOf e he
    rw [hclk]
    rfl

/-- The clock of the topic once the entries are in. -/
def AdmittedBatch.clockOver (b : AdmittedBatch) (r : Records) : ActorClock :=
  b.entries.foldl (fun c e => c.observe e.2.actorId e.2.actorSeq) (r.clockOf b.topicId)

/-- A batch that passes the checks is refused only when a resource is. -/
theorem StorageChecks.admitPlan_post (C : StorageChecks inner.toRecords b) :
    Post (admitPlan E reserve quota inner b)
      (fun plan => plan.entries = b.entries ∧ plan.clock = b.clockOver inner.toRecords)
        (CommitFails reserve b) := by
  have hreserve : ∀ k, Post (reserve k) (fun _ => True) (CommitFails reserve b) := fun k =>
    Post.intro (fun _ _ => trivial) fun e he => .fault he
  unfold admitPlan
  rw [C.batch, ok_bind]
  refine refuseIf_bind (fun h => absurd C.heads h) fun _ => ?_
  refine refuseIf_bind (fun h => absurd C.state h) fun _ => ?_
  rw [C.frontier, ok_bind]
  refine (hreserve 0).bind fun _ _ => ?_
  refine (mergedEffects_post.mono (fun _ _ => trivial) fun e h => .effects h.1 h.2).bind
    fun effects (_ : True) => ?_
  rw [C.entries, ok_bind, C.deps, ok_bind]
  refine (hreserve 1).bind fun _ _ => ?_
  cases quota with
  | none => exact Post.pure ⟨rfl, rfl⟩
  | some q =>
    refine (StagingQuota.check_post.mono (fun _ h => h) ?_).bind fun _ _ => Post.pure ⟨rfl, rfl⟩
    rintro e ⟨message, rfl⟩
    exact .limit rfl

/-! ## The write -/

theorem Records.depResolvable_put {e : Op × OpMeta} {k : OpId} :
    (r.put e).depResolvable k = true ↔ k = e.1.id ∨ r.depResolvable k = true := by
  simp only [Records.depResolvable, Records.put, ExtTreeMap.contains_insert, Bool.and_eq_true, Bool.or_eq_true,
    beq_iff_eq, Std.compare_eq_iff_eq]
  by_cases hk : e.1.id = k
  · simp [hk]
  · simp [hk, Ne.symm hk]

/-- Everything but the records and the buffer is as before. -/
structure SameRest (inner inner' : MemoryInner) : Prop where
  evidence : inner'.toEvidence = inner.toEvidence
  evictions : inner'.evictions = inner.evictions
  sealedTopics : inner'.sealedTopics = inner.sealedTopics
  topicEpochs : inner'.topicEpochs = inner.topicEpochs
  admittedBytes : inner'.admittedBytes = inner.admittedBytes

/-- Writing the entries never fails half way. -/
theorem forEach_writeEntry (B : BufferOK K inner.toRecords inner.toPendingIndex) (l : List (Op × OpMeta)) :
    ∃ inner', forEach writeEntry inner l = (.ok (), inner') ∧
      inner'.toRecords = l.foldl Records.put inner.toRecords ∧ BufferOK K inner'.toRecords inner'.toPendingIndex ∧
      Absorbed inner.toPendingIndex (l.map (·.1.id)) inner'.toPendingIndex ∧ SameRest inner inner' := by
  induction l generalizing inner with
  | nil => exact ⟨inner, rfl, rfl, B, .nil, rfl, rfl, rfl, rfl, rfl⟩
  | cons e l ih =>
    obtain ⟨p₁, h₁, B₁, A₁⟩ := B.absorb (inner.toRecords.put e) e.1.id fun k => Records.depResolvable_put.1
    set inner₁ : MemoryInner := { inner with
      toRecords := inner.toRecords.put e, toPendingIndex := p₁.settleWaitersLocked e.1.id } with hinner₁
    have hwrite : writeEntry inner e = (.ok (), inner₁) := by
      unfold writeEntry
      simp only [h₁]
      rfl
    have B₁' : BufferOK K inner₁.toRecords inner₁.toPendingIndex := B₁
    obtain ⟨inner', h', hrec, B', A', hrest⟩ := ih B₁'
    refine ⟨inner', ?_, hrec, B', A₁.trans A', ?_⟩
    · simp only [forEach, hwrite, h']
    · exact ⟨hrest.1, hrest.2, hrest.3, hrest.4, hrest.5⟩

/-- Once the topic is written, the records read like the grown ones. -/
theorem Batched.agree (R : RecordsOK E r) (H : Batched E r t b rv) :
    rv.Agree E ((b.entries.foldl Records.put r).writeTopic E b (rv.clockOf t)) := by
  have hheads : ∀ t', ((b.entries.foldl Records.put r).writeTopic E b (rv.clockOf t)).headsOf t' =
      rv.headsOf t' := by
    intro t'
    rw [H.grows.put]
    by_cases ht : t = t'
    · subst ht
      simp [Records.headsOf, Records.writeTopic, SetMap.get, H.topicId, H.heads]
    · rw [(H.grows.other ht).1]
      simp [Records.headsOf, Records.writeTopic, SetMap.get, H.topicId, ExtTreeMap.getElem?_insert, ht]
  have hclock : ∀ t', ((b.entries.foldl Records.put r).writeTopic E b (rv.clockOf t)).clockOf t' =
      rv.clockOf t' := by
    intro t'
    rw [H.grows.put]
    by_cases ht : t = t'
    · subst ht
      simp [Records.clockOf, Records.writeTopic, H.topicId]
    · rw [(H.grows.other ht).2.1]
      simp [Records.clockOf, Records.writeTopic, H.topicId, ExtTreeMap.getElem?_insert, ht]
  have hput := H.grows.put
  refine ⟨?_, ?_, ?_, ?_, ?_, ?_, ?_, hheads, hclock, fun t' => ?_, fun t' => ?_, fun t' d hd => ?_⟩
  iterate 7 rw [hput]; rfl
  · unfold Records.topicState
    rw [hheads, hput]
    by_cases ht : t = t'
    · subst ht
      have hstate := H.state
      rw [H.heads] at hstate
      refine Eq.trans ?_ hstate.symm
      cases hst : b.topicState with
      | none => simp [Records.writeTopic, hst, Records.topicState, Function.comp_def]
      | some st => simp [Records.writeTopic, hst, (H.newState st hst).1]
    · have hother := (H.grows.other ht).2.2.1
      unfold Records.topicState at hother
      rw [hother, (H.grows.other ht).1]
      cases hst : b.topicState with
      | none => simp [Records.writeTopic, hst]
      | some st => simp [Records.writeTopic, hst, (H.newState st hst).1, ExtTreeMap.getElem?_insert, ht]
  · by_cases ht : t = t'
    · subst ht
      rw [(H.grows.ok R).fingerprint, ← H.heads]
      simp [Records.topicFingerprintOf, Records.writeTopic, H.topicId]
    · obtain ⟨hh, hc, -, hf, -⟩ := H.grows.other ht
      rw [hf]
      unfold Records.topicFingerprintOf
      rw [hheads, hclock, hh, hc, hput]
      simp [Records.writeTopic, H.topicId, ExtTreeMap.getElem?_insert, ht]
  · rw [hput]
    by_cases ht : t = t'
    · simp [Records.writeTopic, H.topicId, ht]
    · refine ⟨d, ?_⟩
      rw [(H.grows.other ht).2.2.2.2] at hd
      simpa [Records.writeTopic, H.topicId, ExtTreeMap.getElem?_insert, ht] using hd

/-! ## Keyed evidence -/

section Keyed

variable {v v' : Evidence} {o : SyncObligation} {kind : ObligationKind} {peer peer' : PeerId} {t t' : TopicId}

/-- Every record is stored under its own peer, topic and kind. -/
structure Evidence.Keyed (v : Evidence) : Prop where
  acks : ∀ (peer : PeerId) (t : TopicId) ack, v.peerAcks[(peer, t)]? = some ack → ack.peerId = peer ∧
    ack.topicId = t
  obligations : ∀ t peer kind o, v.obligation t peer kind = some o →
    o.topicId = t ∧ o.peerId = peer ∧ ObligationKind.of o = kind

theorem Evidence.keyed_empty : Evidence.Keyed {} := ⟨by simp, by simp [Evidence.obligation]⟩

theorem Evidence.obligation_putObligationLocked (hne : o.isEmpty = false) :
    (v.putObligationLocked o).obligation t peer kind =
      if t = o.topicId ∧ peer = o.peerId ∧ kind = ObligationKind.of o then some o
        else v.obligation t peer kind := by
  unfold Evidence.putObligationLocked Evidence.obligation
  rw [if_neg (by rw [hne]; exact Bool.false_ne_true)]
  simp only [ExtTreeMap.getElem?_insert, Std.compare_eq_iff_eq, Prod.mk.injEq]
  by_cases hkey : o.topicId = t ∧ o.peerId = peer
  · obtain ⟨rfl, rfl⟩ := hkey
    simp only [and_self, if_true, Option.bind_some, true_and, ExtTreeMap.getElem?_insert, Std.compare_eq_iff_eq]
    by_cases hk : ObligationKind.of o = kind
    · simp [hk]
    · rw [if_neg hk, if_neg (Ne.symm hk)]
      cases v.obligations[(o.topicId, o.peerId)]? <;> simp
  · rw [if_neg hkey, if_neg (fun h => hkey ⟨h.1.symm, h.2.1.symm⟩)]

theorem Evidence.peerAcks_putObligationLocked : (v.putObligationLocked o).peerAcks = v.peerAcks := by
  unfold Evidence.putObligationLocked
  split <;> rfl

theorem Evidence.Keyed.put (H : v.Keyed) (o : SyncObligation) : (v.putObligationLocked o).Keyed := by
  refine ⟨by rw [Evidence.peerAcks_putObligationLocked]; exact H.acks, fun t peer kind o' h => ?_⟩
  cases hne : o.isEmpty with
  | true =>
    have hsame : v.putObligationLocked o = v := by
      unfold Evidence.putObligationLocked
      rw [if_pos hne]
    rw [hsame] at h
    exact H.obligations t peer kind o' h
  | false =>
    rw [Evidence.obligation_putObligationLocked hne] at h
    split at h
    · rename_i hkey
      cases h
      exact ⟨hkey.1.symm, hkey.2.1.symm, hkey.2.2.symm⟩
    · exact H.obligations t peer kind o' h

theorem Evidence.Keyed.putAll (H : v.Keyed) (l : List SyncObligation) :
    (l.foldl Evidence.putObligationLocked v).Keyed := by
  induction l generalizing v with
  | nil => exact H
  | cons o l ih => exact ih (H.put o)

theorem Evidence.Keyed.of_sub (H : v.Keyed)
    (hacks : ∀ (k : PeerId × TopicId) ack, v'.peerAcks[k]? = some ack → v.peerAcks[k]? = some ack)
    (hobs : ∀ t peer kind o, v'.obligation t peer kind = some o → v.obligation t peer kind = some o) : v'.Keyed :=
  ⟨fun peer t ack h => H.acks peer t ack (hacks _ ack h), fun t peer kind o h =>
    H.obligations t peer kind o (hobs _ _ _ _ h)⟩

theorem Evidence.obligation_dropPeer :
    (v.dropPeer t' peer').obligation t peer kind = if t' = t ∧ peer' = peer then none
      else v.obligation t peer kind := by
  unfold Evidence.dropPeer Evidence.obligation
  simp only [ExtTreeMap.getElem?_erase, Std.compare_eq_iff_eq, Prod.mk.injEq]
  split <;> rfl

theorem Evidence.Keyed.dropPeer (H : v.Keyed) : (v.dropPeer t peer).Keyed := by
  refine H.of_sub (fun k ack h => (BTreeMap.of_getElem?_erase h).2) fun t' peer' kind o h => ?_
  rw [Evidence.obligation_dropPeer, Option.ite_none_left_eq_some] at h
  exact h.2

theorem Evidence.Keyed.dropPeers (H : v.Keyed) (l : List PeerId) :
    (l.foldl (fun v p => v.dropPeer t p) v).Keyed := by
  induction l generalizing v with
  | nil => exact H
  | cons p l ih => exact ih H.dropPeer

theorem Evidence.obligation_dropTopic :
    (v.dropTopic t').obligation t peer kind = if t = t' then none else v.obligation t peer kind := by
  unfold Evidence.dropTopic Evidence.obligation
  simp only [getElem?_filter_key]
  by_cases h : t = t' <;> simp [h]

theorem Evidence.Keyed.dropTopic (H : v.Keyed) : (v.dropTopic t).Keyed := by
  refine H.of_sub (fun k ack h => ?_) fun t' peer' kind o h => ?_
  · simp only [Evidence.dropTopic, getElem?_filter_key, Option.ite_none_right_eq_some] at h
    exact h.2
  · rw [Evidence.obligation_dropTopic, Option.ite_none_left_eq_some] at h
    exact h.2

end Keyed

/-- What committing a batch leaves: the grown records, and a buffer without the admitted ops. -/
structure Committed (E : Env) (K : Prop) (inner : MemoryInner) (b : AdmittedBatch) (rv : Records)
    (inner' : MemoryInner) : Prop where
  agree : rv.Agree E inner'.toRecords
  buffer : BufferOK K inner'.toRecords inner'.toPendingIndex
  absorbed : Absorbed inner.toPendingIndex (b.entries.map (·.1.id)) inner'.toPendingIndex
  peerAcks : ∀ (k : PeerId × TopicId) ack, inner'.peerAcks[k]? = some ack → inner.peerAcks[k]? = some ack
  keyed : inner.toEvidence.Keyed → inner'.toEvidence.Keyed

/-- The obligations a batch adds touch no acknowledgement. -/
theorem peerAcks_foldl_putObligation (l : List SyncObligation) (v : Evidence) :
    (l.foldl Evidence.putObligationLocked v).peerAcks = v.peerAcks := by
  induction l generalizing v with
  | nil => rfl
  | cons o l ih => rw [foldl_cons, ih, Evidence.peerAcks_putObligationLocked]

theorem peerAcks_foldl_dropPeer {k : PeerId × TopicId} {ack : PeerAck} (l : List PeerId) (v : Evidence)
    (h : (l.foldl (fun v p => v.dropPeer t p) v).peerAcks[k]? = some ack) : v.peerAcks[k]? = some ack := by
  induction l generalizing v with
  | nil => exact h
  | cons p l ih => exact (BTreeMap.of_getElem?_erase (ih _ h)).2

/-- What writing a batch leaves, whatever the records were. -/
structure Written (E : Env) (K : Prop) (inner : MemoryInner) (b : AdmittedBatch)
    (inner' : MemoryInner) : Prop where
  records : inner'.toRecords =
    (b.entries.foldl Records.put inner.toRecords).writeTopic E b (b.clockOver inner.toRecords)
  buffer : BufferOK K inner'.toRecords inner'.toPendingIndex
  absorbed : Absorbed inner.toPendingIndex (b.entries.map (·.1.id)) inner'.toPendingIndex
  peerAcks : ∀ (k : PeerId × TopicId) ack, inner'.peerAcks[k]? = some ack → inner.peerAcks[k]? = some ack
  keyed : inner.toEvidence.Keyed → inner'.toEvidence.Keyed
  evictions : inner'.evictions = inner.evictions
  sealedTopics : inner'.sealedTopics = inner.sealedTopics

/-- **A batch that passes the checks is written as a whole or not at all.** -/
theorem StorageChecks.commit (C : StorageChecks inner.toRecords b) (reserve : ℕ → Result Unit)
    (quota : Option StagingQuota) (B : BufferOK K inner.toRecords inner.toPendingIndex) :
    (∃ e, CommitFails reserve b e ∧ admitBatchLocked E reserve quota inner b = (.error e, inner)) ∨
      ∃ inner', admitBatchLocked E reserve quota inner b = (.ok (), inner') ∧ Written E K inner b inner' := by
  have hplan : Post (admitPlan E reserve quota inner b) _ _ := C.admitPlan_post
  unfold admitBatchLocked
  cases hp : admitPlan E reserve quota inner b with
  | error e => exact Or.inl ⟨e, hplan.of_error hp, rfl⟩
  | ok plan =>
    obtain ⟨hentries, hclock⟩ := hplan.of_ok hp
    set inner₀ : MemoryInner := { inner with admittedBytes := inner.admittedBytes + plan.charge } with hinner₀
    have B₀ : BufferOK K inner₀.toRecords inner₀.toPendingIndex := B
    obtain ⟨inner₁, hforEach, hrec, B₁, A₁, hrest⟩ := forEach_writeEntry B₀ b.entries
    have hops : ∀ k, (inner₁.toRecords.writeTopic E b plan.clock).depResolvable k =
      inner₁.toRecords.depResolvable k :=
      fun _ => rfl
    dsimp only
    rw [hentries, hforEach]
    refine Or.inr ⟨_, rfl, ?_, ?_, A₁, fun k ack hack => ?_, fun H => ?_, ?_, ?_⟩
    · change inner₁.toRecords.writeTopic E b plan.clock = _
      rw [hclock, hrec]
    · exact B₁.of_resolves fun k hk => (hops k).symm.trans hk
    · have hack' := peerAcks_foldl_dropPeer _ _ hack
      rw [peerAcks_foldl_putObligation, hrest.evidence] at hack'
      exact hack'
    · exact (Evidence.Keyed.putAll (hrest.evidence ▸ H) _).dropPeers _
    · exact hrest.evictions
    · exact hrest.sealedTopics

theorem Batched.committed (H : Batched E inner.toRecords t b rv) (R : RecordsOK E inner.toRecords)
    {inner' : MemoryInner} (W : Written E K inner b inner') : Committed E K inner b rv inner' where
  agree := by
    have hagree := H.agree R
    rwa [H.grows.clock, ← H.topicId, ← AdmittedBatch.clockOver, ← W.records] at hagree
  buffer := W.buffer
  absorbed := W.absorbed
  peerAcks := W.peerAcks
  keyed := W.keyed

/-- **A batch built on these records is committed as a whole or not at all.** -/
theorem Batched.commit (H : Batched E inner.toRecords t b rv) (reserve : ℕ → Result Unit)
    (quota : Option StagingQuota) (R : RecordsOK E inner.toRecords)
    (B : BufferOK K inner.toRecords inner.toPendingIndex) :
    (∃ e, CommitFails reserve b e ∧ admitBatchLocked E reserve quota inner b = (.error e, inner)) ∨
      ∃ inner', admitBatchLocked E reserve quota inner b = (.ok (), inner') ∧ Committed E K inner b rv inner' ∧
        inner'.evictions = inner.evictions ∧ inner'.sealedTopics = inner.sealedTopics :=
  ((H.checks R).commit reserve quota B).imp_right fun ⟨inner', h, W⟩ =>
    ⟨inner', h, H.committed R W, W.evictions, W.sealedTopics⟩

/-! ## Resets -/

/-- What resetting a topic leaves. -/
structure ResetTo (K : Prop) (inner : MemoryInner) (t : TopicId) (inner' : MemoryInner) : Prop where
  records : inner'.toRecords = inner.toRecords.resetTopic t
  buffer : BufferOK K inner'.toRecords inner'.toPendingIndex
  pending : ∀ k : OpId, inner'.pendingRecords[k]? =
    if k ∈ SetMap.get inner.pendingByTopic t then none else inner.pendingRecords[k]?
  pendingOps : ∀ k : OpId, inner'.pendingOps[k]? =
    if k ∈ SetMap.get inner.pendingByTopic t then none else inner.pendingOps[k]?
  peerAcks : inner'.peerAcks = inner.peerAcks.filter fun k _ => decide (k.2 ≠ t)
  keyed : inner.toEvidence.Keyed → inner'.toEvidence.Keyed
  evictions : inner'.evictions = inner.evictions
  sealedTopics : inner'.sealedTopics = inner.sealedTopics
  since : inner'.pendingSince = inner.pendingSince

/-- A reset makes nothing resolvable. -/
theorem Records.depResolvable_resetTopic {k : OpId} (h : (r.resetTopic t).depResolvable k = true) :
    r.depResolvable k = true := by
  have hdrop : ∀ (r : Records) (id : OpId), (r.dropOp id).depResolvable k = true → r.depResolvable k = true := by
    intro r id hk
    simp only [Records.depResolvable, Records.dropOp, ExtTreeMap.contains_erase, Bool.and_eq_true] at hk ⊢
    exact ⟨hk.1.2, hk.2.2⟩
  have hfold : ∀ (l : List OpId) (r : Records), (l.foldl Records.dropOp r).depResolvable k = true →
      r.depResolvable k = true := by
    intro l
    induction l with
    | nil => exact fun _ h => h
    | cons id l ih => exact fun r h => hdrop r id (ih _ h)
  exact hfold _ r h

/-- A reset fails only when its reservation does, and then nothing changes. -/
theorem resetTopicLocked_spec (B : BufferOK K inner.toRecords inner.toPendingIndex) (t : TopicId)
    (reserve : Result Unit) :
    (∃ e, reserve = .error e ∧ resetTopicLocked E reserve inner t = (.error e, inner)) ∨
      ∃ k inner', reserve = .ok () ∧ resetTopicLocked E reserve inner t = (.ok k, inner') ∧
        ResetTo K inner t inner' := by
  unfold resetTopicLocked
  cases reserve with
  | error e => exact Or.inl ⟨e, rfl, rfl⟩
  | ok u =>
    have B₀ : BufferOK K (inner.toRecords.resetTopic t)
        { inner.toPendingIndex with rejected := inner.rejected.erase t } := by
      have B' : BufferOK K (inner.toRecords.resetTopic t) inner.toPendingIndex :=
        B.of_resolves fun k => Records.depResolvable_resetTopic
      exact ⟨B'.ok.withRejected _, B'.stored, B'.missing⟩
    obtain ⟨p', h', ok', R'⟩ := B₀.ok.removeAll (SetMap.get inner.pendingByTopic t).toList
    dsimp only
    rw [h']
    refine Or.inr ⟨_, _, rfl, rfl, rfl, B₀.removed ok' R', fun k => ?_, fun k => ?_, rfl, .dropTopic, rfl,
      rfl, R'.since⟩
    · have := R'.records k
      rwa [if_congr mem_toList rfl rfl] at this
    · have := R'.ops k
      rwa [if_congr mem_toList rfl rfl] at this

theorem journal_post {reserve : Result Unit} {evictions : BTreeMap EvictionKey TopicEviction}
    {eviction : Option TopicEviction} :
    Post (journal E reserve evictions eviction) (fun ev => ∀ e, journalledEviction E eviction = some e →
        ev = evictions.insert e.1 e.2)
      fun e => e = .evictionJournalFull ∨ reserve = .error e := by
  unfold journal
  split
  · rename_i hnone
    exact Post.ok fun e he => by rw [hnone] at he; cases he
  · rename_i key e hsome
    refine refuseIf_bind (fun _ => Or.inl rfl) fun _ => ?_
    refine (Post.intro (P := fun _ => True) (fun _ _ => trivial) fun e he => Or.inr he).bind fun _ _ => Post.ok ?_
    intro e' he'
    rw [hsome] at he'
    cases he'
    rfl

/-- **A reset and a batch that passes the checks after it are written together or not at all.** -/
theorem StorageChecks.resetTopicAndAdmit_post {expected : TopicState} {eviction : Option TopicEviction}
    (C : StorageChecks (inner.toRecords.resetTopic t) b) (B : BufferOK K inner.toRecords inner.toPendingIndex) :
    Post (resetTopicAndAdmit E reserve inner t expected b eviction)
      (fun res => t ∉ inner.sealedTopics ∧
        (∃ inner₁ inner₂, ResetTo K inner t inner₁ ∧ Written E K inner₁ b inner₂ ∧
          res.2 = { inner₂ with evictions := res.2.evictions }) ∧
        journal E (reserve 4) inner.evictions eviction = .ok res.2.evictions ∧
        res.2.sealedTopics = inner.sealedTopics)
      (fun e => CommitFails reserve b e ∨ e = .admissionConflict ∧ inner.topicState t ≠ some expected) := by
  unfold resetTopicAndAdmit
  refine refuseIf_bind (fun _ => Or.inl (.limit rfl)) fun hseal => ?_
  refine refuseIf_bind (fun h => Or.inr ⟨rfl, h⟩) fun _ => ?_
  refine (Post.intro (P := fun _ => True) (fun _ _ => trivial) fun e he => Or.inl (.fault he)).bind fun _ _ => ?_
  rcases resetTopicLocked_spec B t (reserve 3) with ⟨e, hfault, hres⟩ | ⟨k, inner₁, -, hres, R₁⟩
  · rw [hres]
    exact Post.error (Or.inl (.fault hfault))
  · rw [hres]
    dsimp only
    rw [ok_bind]
    have C₁ : StorageChecks inner₁.toRecords b := R₁.records ▸ C
    rcases C₁.commit reserve none R₁.buffer with ⟨e, hfail, had⟩ | ⟨inner₂, had, W⟩
    · rw [had]
      exact Post.error (Or.inl hfail)
    · rw [had]
      dsimp only
      rw [ok_bind]
      refine ((Post.intro (fun ev h => h) fun e h => ?_)).bind fun ev hj =>
        Post.pure ⟨hseal, ⟨inner₁, inner₂, R₁, W, rfl⟩, ?_, ?_⟩
      · rcases journal_post.of_error h with rfl | h
        · exact Or.inl (.limit rfl)
        · exact Or.inl (.fault h)
      · rw [← R₁.evictions, ← W.evictions]
        exact hj
      · exact W.sealedTopics.trans R₁.sealedTopics

/-- **A reset and the batch that replaces the topic are committed together or not at all.** -/
theorem resetTopicAndAdmit_post {expected : TopicState} {eviction : Option TopicEviction}
    (R : RecordsOK E inner.toRecords) (B : BufferOK K inner.toRecords inner.toPendingIndex)
    (H : Batched E (inner.toRecords.resetTopic t) t b rv) :
    Post (resetTopicAndAdmit E reserve inner t expected b eviction)
      (fun res => t ∉ inner.sealedTopics ∧
        (∃ inner₁, ResetTo K inner t inner₁ ∧ Committed E K inner₁ b rv res.2) ∧
        journal E (reserve 4) inner.evictions eviction = .ok res.2.evictions ∧
        res.2.sealedTopics = inner.sealedTopics)
      (fun e => CommitFails reserve b e ∨ e = .admissionConflict ∧ inner.topicState t ≠ some expected) := by
  refine ((H.checks (R.resetTopic t)).resetTopicAndAdmit_post B).mono ?_ fun _ h => h
  rintro res ⟨hseal, ⟨inner₁, inner₂, R₁, W, hres⟩, hrest⟩
  refine ⟨hseal, ⟨inner₁, R₁, ?_⟩, hrest⟩
  have Rok : RecordsOK E inner₁.toRecords := R₁.records ▸ R.resetTopic t
  have H₁ : Batched E inner₁.toRecords t b rv := R₁.records ▸ H
  have C := H₁.committed Rok W
  rw [hres]
  exact ⟨C.agree, C.buffer, C.absorbed, C.peerAcks, C.keyed⟩

end Irokle
