import Irokle.Proof.Reachable

/-!
# Batches on damaged stores

Op and metadata records can be lost while the indexes, heads and states stay. `build_batch` then refills what
it receives: it takes an id that the chain accounts for as a repair, which moves no head and no tip. The
storage makes the same distinction on its own, from the ids of the batch alone, and recomputes the frontier as
a difference of sets. The two agree on every batch, whatever was lost.

* `buildOp_step` — what one op does to a batch, on any records;
* `Laid.step` — the storage's checks pass for the batch so far;
* `built_commits` — a built batch is refused for want of resources only.
-/

namespace Irokle

open Std Outcome List ExtTreeMap

variable {E : Env} {V : View} {n : ℕ} {r r₀ : Records} {reset : Bool} {t : TopicId} {op : Op} {m : OpMeta}
  {b b' : Build} {verified : BTreeSet OpId} {l done : List Op} {entries : List (Op × OpMeta)}
  {expected : Option TopicState}

/-! ## Damage -/

/-- `r` is `r₀` once op and metadata records were lost. The indexes, heads and states are intact. -/
structure Lost (r₀ r : Records) : Prop where
  ops : ∀ (id : OpId) op, r.ops[id]? = some op → r₀.ops[id]? = some op
  metas : ∀ (id : OpId) m, r.metas[id]? = some m → r₀.metas[id]? = some m
  rest : r = { r₀ with ops := r.ops, metas := r.metas }

/-- What the checks of a batch read of the records, damaged or not. -/
structure Grounded (E : Env) (r : Records) : Prop where
  states : ∀ t st, r.topicState t = some st → st.topicId = t
  noState : ∀ t, r.topicState t = none → r.headsOf t = ∅
  valid : ∀ (id : OpId) op, r.ops[id]? = some op → op.id = id ∧ E.Valid op
  childKeys : SetMap.NoEmpty r.children
  listed : ∀ id, r.ops.contains id = true ∨ r.metas.contains id = true ∨ r.children.contains id = true →
    ∃ x, E.Valid x ∧ x.id = id ∧ id ∈ r.listOpIds x.body.topicId

theorem RecordsOK.grounded (R : RecordsOK E r) : Grounded E r where
  states t st hst := by
    obtain ⟨g, γ, B, hst'⟩ := R.state t st hst
    exact hst'.topicId.trans B.root_topic
  noState t h := R.headsOf_eq_empty h
  valid id op hop := ⟨R.opId id op hop, R.valid hop⟩
  childKeys := R.childKeys
  listed id h := by
    have hstored : ∀ {x : Op}, r.ops[id]? = some x → ∃ x, E.Valid x ∧ x.id = id ∧
      id ∈ r.listOpIds x.body.topicId :=
      fun {x} hx => ⟨x, R.valid hx, R.opId id x hx, (R.topicOps _ id).2 ⟨x, R.mem_admitted hx, R.opId id x hx⟩⟩
    rcases h with h | h | h
    · rw [contains_eq_isSome_getElem?, Option.isSome_iff_exists] at h
      exact hstored h.choose_spec
    · rw [R.contains_meta, contains_eq_isSome_getElem?, Option.isSome_iff_exists] at h
      exact hstored h.choose_spec
    · obtain ⟨c, hc⟩ := R.childKeys.mem_iff.1 (mem_iff_contains.2 h)
      obtain ⟨op, hop, rfl, hdep⟩ := (R.children id c).1 hc
      obtain ⟨x, hx, hid⟩ := R.closed _ op (R.mem_admitted hop) id hdep
      have hx' : r.ops[id]? = some x := (show x.id = id from hid) ▸ hx.1
      exact hstored hx'

theorem Grounded.lost (G : Grounded E r₀) (h : Lost r₀ r) : Grounded E r := by
  have hrest := h.rest
  have hops : ∀ {id : OpId}, r.ops.contains id = true → r₀.ops.contains id = true := by
    intro id hid
    rw [contains_eq_isSome_getElem?, Option.isSome_iff_exists] at hid ⊢
    exact hid.imp fun x hx => h.ops id x hx
  have hmetas : ∀ {id : OpId}, r.metas.contains id = true → r₀.metas.contains id = true := by
    intro id hid
    rw [contains_eq_isSome_getElem?, Option.isSome_iff_exists] at hid ⊢
    exact hid.imp fun x hx => h.metas id x hx
  refine ⟨fun t st hst => G.states t st ?_, fun t hst => ?_, fun id op hop => G.valid id op (h.ops id op hop), ?_,
    fun id hid => ?_⟩
  · rw [hrest] at hst
    exact hst
  · rw [hrest] at hst ⊢
    exact G.noState t hst
  · rw [hrest]
    exact G.childKeys
  · have hchildren : r.children = r₀.children := by rw [hrest]
    obtain ⟨x, hx⟩ := G.listed id (by
      rw [hchildren] at hid
      exact hid.imp hops (Or.imp_left hmetas))
    refine ⟨x, hx.1, hx.2.1, ?_⟩
    rw [hrest]
    exact hx.2.2

/-! ## A topic that is reset -/

/-- What is left once the ops `ids` were dropped, on any records. -/
structure LeftOver (r : Records) (ids : List OpId) (r' : Records) : Prop where
  ops : ∀ id, r'.ops.contains id = true → r.ops.contains id = true ∧ id ∉ ids
  metas : ∀ id, r'.metas.contains id = true → r.metas.contains id = true ∧ id ∉ ids
  children : ∀ id, r'.children.contains id = true → r.children.contains id = true ∧ id ∉ ids
  childKeys : SetMap.NoEmpty r'.children
  rest : r' = { r with ops := r'.ops, metas := r'.metas, children := r'.children }

theorem contains_of_erase {β : Type _} {m : BTreeMap OpId β} {id k : OpId} (h : (m.erase id).contains k = true) :
    m.contains k = true ∧ k ∉ [id] := by
  rw [contains_erase, Bool.and_eq_true, bne_iff_ne] at h
  exact ⟨h.2, fun hk => h.1 (Std.compare_eq_iff_eq.2 (mem_singleton.1 hk).symm)⟩

theorem leftOver_dropOp (h : SetMap.NoEmpty r.children) (id : OpId) : LeftOver r [id] (r.dropOp id) where
  ops _ hk := contains_of_erase hk
  metas _ hk := contains_of_erase hk
  children k hk := by
    obtain ⟨hk, hne⟩ := contains_of_erase hk
    obtain ⟨c, hc⟩ := h.foldl_erase.mem_iff.1 (mem_iff_contains.2 hk)
    rw [SetMap.mem_get_foldl_erase] at hc
    exact ⟨mem_iff_contains.1 (h.mem_iff.2 ⟨c, hc.1⟩), hne⟩
  childKeys := h.foldl_erase.erase_key
  rest := rfl

theorem leftOver_foldl (h : SetMap.NoEmpty r.children) (ids : List OpId) :
    LeftOver r ids (ids.foldl Records.dropOp r) := by
  induction ids generalizing r with
  | nil => exact ⟨by simp, by simp, by simp, h, rfl⟩
  | cons id ids ih =>
    have h₁ := leftOver_dropOp h id
    have h₂ := ih h₁.childKeys
    have both : ∀ {k : OpId} {p q : Prop}, p ∧ k ∉ [id] → q ∧ k ∉ ids → p ∧ k ∉ id :: ids := by
      intro k p q hp hq
      exact ⟨hp.1, by simpa using ⟨by simpa using hp.2, hq.2⟩⟩
    refine ⟨fun k hk => both (h₁.ops k (h₂.ops k hk).1) (h₂.ops k hk),
      fun k hk => both (h₁.metas k (h₂.metas k hk).1) (h₂.metas k hk),
      fun k hk => both (h₁.children k (h₂.children k hk).1) (h₂.children k hk), h₂.childKeys, ?_⟩
    rw [foldl_cons, h₂.rest, h₁.rest]

/-- **A reset leaves nothing of its topic**: no record, slot or child names a valid op of it. -/
theorem Grounded.vacant_resetTopic (G : Grounded E r) (hvalid : E.Valid op) :
    Vacant (r.resetTopic op.body.topicId) op := by
  have L := leftOver_foldl G.childKeys (r.listOpIds op.body.topicId).toList
  have hgone : ∀ {c : Bool}, (c = true → (r.ops.contains op.id = true ∨ r.metas.contains op.id = true ∨
      r.children.contains op.id = true) ∧ op.id ∉ (r.listOpIds op.body.topicId).toList) → c = false := by
    intro c hc
    refine Bool.eq_false_iff.2 fun h => ?_
    obtain ⟨hheld, hnot⟩ := hc h
    obtain ⟨x, hx, hid, hlisted⟩ := G.listed op.id hheld
    rw [hx.eq_of_id hvalid hid] at hlisted
    exact hnot (ExtTreeSet.mem_toList.2 hlisted)
  refine ⟨hgone fun h => ?_, hgone fun h => ?_, ?_, hgone fun h => ?_⟩
  · exact (L.ops op.id h).imp_left fun h => Or.inl h
  · exact (L.metas op.id h).imp_left fun h => Or.inr (Or.inl h)
  · simp [Records.resetTopic, Records.dropTopic]
  · exact (L.children op.id h).imp_left fun h => Or.inr (Or.inr h)

theorem Records.topic_resetTopic (r : Records) (t : TopicId) :
    (r.resetTopic t).headsOf t = ∅ ∧ (r.resetTopic t).topicState t = none ∧
      ∀ a : ActorId, (r.resetTopic t).actorTip[(t, a)]? = none := by
  refine ⟨?_, ?_, fun a => ?_⟩
  · simp [Records.resetTopic, Records.dropTopic, Records.headsOf, SetMap.get]
  · simp [Records.resetTopic, Records.dropTopic, Records.topicState]
  · simp [Records.resetTopic, Records.dropTopic]

/-! ## What one op does to a batch -/

/-- What taking `op` does to the batch `b`, on any records. -/
inductive BuildStep (r : Records) (reset : Bool) (op : Op) (b : Build) : Build → Prop
  | kept (ps : Projections) (pending : List (Op × BTreeSet OpId)) :
      BuildStep r reset op b { b with projections := ps, pending := pending }
  | repaired {clk : ActorClock} {ps : Projections} (hreset : reset = false)
      (hstored : storedOpState r op = .repair) (hdeps : missingDepsProjected r b.overlay op reset = ∅)
      (hslot : ∀ id, r.actorBySeq[(op.body.topicId, op.body.actorId, op.body.actorSeq)]? = some id → id = op.id) :
      BuildStep r reset op b (b.addRepair op (metaOf op clk) ps)
  | appended {clk : ActorClock} {st : Option TopicState × Bool} {ps : Projections}
      (hstored : reset = false → storedOpState r op = .absent)
      (hdeps : missingDepsProjected r b.overlay op reset = ∅)
      (hslot : ∀ id, slotHolder r b.overlay op.body reset = some id → id = op.id)
      (hpos : nextActorPosition (tipProjected r b.overlay op.body reset) =
        .ok (op.body.actorSeq, op.body.actorPrev))
      (hstate : nextState b.state op = .ok st) :
      BuildStep r reset op b (b.addEntry op (metaOf op clk) st ps)

theorem metaForProjected_metaOf {o : Overlay} :
    Post (metaForProjected r o op) (fun m => ∃ clk, m = metaOf op clk) fun _ => True :=
  Post.skip fun clk => Post.pure ⟨clk, rfl⟩

theorem Option.any_ne_eq_false {α : Type _} [DecidableEq α] {x : Option α} {a : α} (h : ¬x.any (· ≠ a) = true) :
    ∀ y, x = some y → y = a := by
  rintro y rfl
  simpa using h

/-- What a repair has checked of the op it refills. -/
theorem validateRepair_step {o : Overlay} {state : Option TopicState} {ps : Projections} :
    Post (validateRepair E n r o state ps op) (fun res => (∃ clk, res.1 = metaOf op clk) ∧
      ∀ id, r.actorBySeq[(op.body.topicId, op.body.actorId, op.body.actorSeq)]? = some id →
        id = op.id) fun _ => True := by
  unfold validateRepair
  refine refuseIf_bind (fun _ => trivial) fun _ => refuseIf_bind (fun _ => trivial) fun hslot => Post.skip
    fun ps' => ?_
  have hrest : Post (do
      let generation ← repairGeneration r o op.body.topicId op.body.deps.toList
      refuseIf (op.body.generation ≠ generation) (.generationMismatch generation op.body.generation)
      let m ← metaForProjected r o op
      refuseIf (r.metas[op.id]?.any (· ≠ m)) .invalidOpId
      return (m, ps') : Result (OpMeta × Projections)) (fun res => (∃ clk, res.1 = metaOf op clk) ∧
        ∀ id, r.actorBySeq[(op.body.topicId, op.body.actorId, op.body.actorSeq)]? = some id →
          id = op.id) fun _ => True := by
    refine Post.skip fun _ => Post.skip fun _ => metaForProjected_metaOf.bind fun m hm => Post.skip fun _ => ?_
    exact Post.pure ⟨hm, Option.any_ne_eq_false hslot⟩
  dsimp only
  split
  · exact Post.skip fun _ => hrest
  · exact Post.skip fun _ => Post.skip fun _ => Post.skip fun _ => Post.skip fun _ => Post.skip fun _ => hrest

/-- What an admission has checked of the op it appends. -/
theorem validateOpProjected_step {o : Overlay} {heads : BTreeSet OpId} {state : Option TopicState}
    {ps : Projections} :
    Post (validateOpProjected E n r o reset heads state ps op) (fun res => res.1 = .admitted →
      (∀ id, slotHolder r o op.body reset = some id → id = op.id) ∧
        nextActorPosition (tipProjected r o op.body reset) = .ok (op.body.actorSeq, op.body.actorPrev))
          fun _ => True := by
  unfold validateOpProjected
  refine refuseIf_bind (fun _ => trivial) fun _ => refuseIf_bind (fun _ => trivial) fun _ => ?_
  refine refuseIf_bind (fun _ => trivial) fun hslot => ?_
  split
  · exact Post.pure fun h => by cases h
  · refine Post.skip fun ps' => ?_
    refine (Post.intro (fun pos h => h) fun _ _ => trivial).bind ?_
    rintro ⟨seq, prev⟩ hpos
    dsimp only
    split
    · split
      · exact Post.pure fun h => by cases h
      · exact Post.throw trivial
    · rename_i hseq
      refine refuseIf_bind (fun _ => trivial) fun hprev => Post.skip fun _ => Post.skip fun _ =>
        Post.pure fun _ => ?_
      refine ⟨Option.any_ne_eq_false hslot, ?_⟩
      rw [hpos, not_not.1 hseq, not_not.1 hprev]

theorem buildAbsent_step {repair : Bool}
    (hstored : reset = false → storedOpState r op = if repair then .repair else .absent)
    (hrepair : repair = true → reset = false) :
    Post (buildAbsent E n r reset repair b op) (BuildStep r reset op b) fun _ => True := by
  unfold buildAbsent
  dsimp only
  have hempty : (missingDepsProjected r b.overlay op reset).isEmpty = true →
    missingDepsProjected r b.overlay op reset = ∅ :=
    ExtTreeSet.isEmpty_iff.1
  split
  · rename_i hr
    rw [hr] at hstored
    split
    · rename_i hmissing
      refine validateRepair_step.bind ?_
      rintro ⟨m, ps⟩ ⟨⟨clk, rfl⟩, hslot⟩
      exact Post.pure (.repaired (hrepair hr) (hstored (hrepair hr)) (hempty hmissing) hslot)
    · exact Post.ok (.kept _ _)
  · rename_i hr
    rw [Bool.eq_false_iff.2 hr] at hstored
    split
    · rename_i hmissing
      refine validateOpProjected_step.bind ?_
      rintro ⟨admission, ps⟩ hadmitted
      cases admission with
      | duplicate => exact Post.pure (.kept _ _)
      | admitted =>
        obtain ⟨hslot, hpos⟩ := hadmitted rfl
        refine metaForProjected_metaOf.bind fun m hm => ?_
        obtain ⟨clk, rfl⟩ := hm
        refine (Post.intro (fun st h => h) fun _ _ => trivial).bind fun st hst => ?_
        exact Post.pure (.appended hstored (hempty hmissing) hslot hpos hst)
    · refine Post.skip fun admission => ?_
      cases admission with
      | duplicate => exact Post.pure (.kept _ _)
      | admitted => exact Post.pure (.kept _ _)

/-- **What one op does to a batch.** -/
theorem buildOp_step : Post (buildOp E n r reset verified b op)
    (fun b' => (op.id ∉ verified → E.Valid op) ∧ BuildStep r reset op b b') fun _ => True := by
  unfold buildOp
  refine Post.skip fun _ => ?_
  have hrest : Post (buildStored E n r reset b op) (BuildStep r reset op b) fun _ => True := by
    unfold buildStored
    cases reset with
    | true => exact buildAbsent_step (fun h => by cases h) fun h => by cases h
    | false =>
      cases hs : storedOpState r op with
      | complete =>
        simp only [Bool.false_eq_true, if_false]
        split
        · exact Post.throw trivial
        · exact Post.pure (.kept _ _)
      | repair => exact buildAbsent_step (fun _ => hs) fun _ => rfl
      | absent => exact buildAbsent_step (fun _ => hs) fun h => by cases h
  dsimp only
  by_cases hin : op.id ∈ verified
  · rw [if_neg (not_not.2 hin)]
    exact hrest.mono (fun b' h => ⟨fun hn => absurd hin hn, h⟩) fun _ h => h
  · rw [if_pos hin]
    refine (validate_post.mono (fun _ h => h) fun _ _ => trivial).bind fun _ hvalid => ?_
    exact hrest.mono (fun b' h => ⟨fun _ => hvalid, h⟩) fun _ h => h

/-! ## The storage's checks of the batch so far -/

/-- The frontier that the entries which append to the chain leave of `heads`. -/
def OnFrontier (r : Records) (entries : List (Op × OpMeta)) (heads : BTreeSet OpId) (id : OpId) : Prop :=
  (id ∈ heads ∨ ∃ e ∈ entries, r.accounted e.2 = false ∧ e.1.id = id) ∧
    ∀ e ∈ entries, r.accounted e.2 = false → id ∉ e.1.body.deps

/-- The entries of the batch `b`, built from the ops `done`, pass the storage's checks on the base records. -/
structure Laid (r : Records) (reset : Bool) (t : TopicId) (done : List Op) (b : Build) : Prop where
  entry : ∀ e ∈ b.entries, e.1 ∈ done ∧ e.1.body.topicId = t ∧ ∃ clk, e.2 = metaOf e.1 clk
  overlay : ∀ id, b.overlay.ops.contains id = true → ∃ e ∈ b.entries, e.1.id = id
  written : ∀ rest, newEntries (r.base reset t) t (b.entries ++ rest) ∅ =
    (newEntries (r.base reset t) t rest b.overlay.tips).map (b.entries ++ ·)
  deps : ∀ e ∈ b.entries, ∀ d ∈ e.1.body.deps, (r.base reset t).depResolvable d = true ∨
    ∃ e' ∈ b.entries, e'.1.id = d
  heads : ∀ id, id ∈ b.heads ↔ OnFrontier (r.base reset t) b.entries ((r.base reset t).headsOf t) id
  state : ∀ st, b.state = some st → st.topicId = t
  repairs : ∀ e ∈ b.entries, (r.base reset t).accounted e.2 =
    decide (reset = false ∧ storedOpState r e.1 = .repair)

theorem depResolvable_of_not_missing {o : Overlay} (h : missingDepsProjected r o op reset = ∅) {d : OpId}
    (hd : d ∈ op.body.deps) :
    o.ops.contains d = true ∨ (r.base reset t).depResolvable d = true := by
  have hnot : d ∉ missingDepsProjected r o op reset := by rw [h]; simp
  unfold missingDepsProjected at hnot
  rw [ExtTreeSet.mem_filter] at hnot
  cases ho : o.ops.contains d with
  | true => exact Or.inl rfl
  | false =>
    cases reset with
    | true => exact absurd ⟨hd, by simp [ho]⟩ hnot
    | false =>
      refine Or.inr (by_contra fun hres => hnot ⟨hd, ?_⟩)
      simpa [ho, Records.base] using hres

/-- An entry more, that the storage takes as the builder did. -/
theorem Laid.snoc (L : Laid r reset t done b) {clk : ActorClock} {appends : Bool} (ht : op.body.topicId = t)
    (horder : ∀ x ∈ done, x.id ≠ op.id ∧ op.id ∉ x.body.deps)
    (hmissing : missingDepsProjected r b.overlay op reset = ∅)
    (hcheck : checkEntry (r.base reset t) b.overlay.tips op (metaOf op clk) = .ok (some appends))
    (hacc : (r.base reset t).accounted (metaOf op clk) = !appends)
    (hrepair : appends = !decide (reset = false ∧ storedOpState r op = .repair)) (hentries : b'.entries =
      b.entries ++ [(op, metaOf op clk)]) (hops : b'.overlay.ops = b.overlay.ops.insert op.id op)
    (htips : b'.overlay.tips =
      if appends then b.overlay.tips.insert (op.body.topicId, op.body.actorId) (op.body.actorSeq, op.id)
        else b.overlay.tips)
    (hheads : b'.heads = if appends then (b.heads \ op.body.deps).insert op.id else b.heads)
    (hstate : ∀ st, b'.state = some st → st.topicId = t) : Laid r reset t (done ++ [op]) b' where
  entry e he := by
    rw [hentries] at he
    rcases mem_append.1 he with he | he
    · obtain ⟨hin, hrest⟩ := L.entry e he
      exact ⟨mem_append_left _ hin, hrest⟩
    · rw [mem_singleton.1 he]
      exact ⟨by simp, ht, clk, rfl⟩
  overlay id h := by
    rw [hops, ExtTreeMap.contains_insert, Bool.or_eq_true, beq_iff_eq, Std.compare_eq_iff_eq] at h
    rw [hentries]
    rcases h with rfl | h
    · exact ⟨_, mem_append_right _ (mem_singleton.2 rfl), rfl⟩
    · obtain ⟨e, he, hid⟩ := L.overlay id h
      exact ⟨e, mem_append_left _ he, hid⟩
  written rest := by
    subst ht
    rw [hentries, append_assoc, L.written, singleton_append, newEntries_cons hcheck, htips]
    cases newEntries (r.base reset op.body.topicId) op.body.topicId rest
        (if appends then b.overlay.tips.insert (op.body.topicId, op.body.actorId) (op.body.actorSeq, op.id)
          else b.overlay.tips) with
    | error e => rfl
    | ok l => simp [Except.map]
  deps e he d hd := by
    rw [hentries] at he ⊢
    rcases mem_append.1 he with he | he
    · refine (L.deps e he d hd).imp_right ?_
      rintro ⟨e', he', hid⟩
      exact ⟨e', mem_append_left _ he', hid⟩
    · rw [mem_singleton.1 he] at hd
      rcases depResolvable_of_not_missing (t := t) hmissing hd with ho | hres
      · obtain ⟨e', he', hid⟩ := L.overlay d ho
        exact Or.inr ⟨e', mem_append_left _ he', hid⟩
      · exact Or.inl hres
  heads id := by
    rw [hentries, hheads]
    cases appends with
    | false =>
      simp only [Bool.false_eq_true, if_false]
      rw [L.heads]
      simp [OnFrontier, or_imp, forall_and, hacc]
    | true =>
      -- nothing before the op, nor the op itself, depends on it
      have hself : op.id ∉ op.body.deps := by
        intro hd
        rcases depResolvable_of_not_missing (t := t) hmissing hd with ho | hres
        · obtain ⟨e, he, hid⟩ := L.overlay op.id ho
          exact (horder e.1 (L.entry e he).1).1 hid
        · simp only [Records.accounted, metaOf, Bool.not_true, Bool.or_eq_false_iff] at hacc
          rw [Records.depResolvable, hacc.1.1.1, Bool.false_and] at hres
          cases hres
      have hbefore : ∀ e ∈ b.entries, op.id ∉ e.1.body.deps := fun e he => (horder e.1 (L.entry e he).1).2
      simp only [if_true, ExtTreeSet.mem_insert, ExtTreeSet.mem_diff_iff, Std.compare_eq_iff_eq, L.heads]
      simp only [OnFrontier, mem_append, mem_singleton]
      constructor
      · rintro (rfl | ⟨⟨hin, hnot⟩, hd⟩)
        · refine ⟨Or.inr ⟨_, Or.inr rfl, hacc, rfl⟩, ?_⟩
          rintro e (he | rfl) _
          · exact hbefore e he
          · exact hself
        · refine ⟨hin.imp_right ?_, ?_⟩
          · rintro ⟨e, he, h⟩
            exact ⟨e, Or.inl he, h⟩
          rintro e (he | rfl) hc
          · exact hnot e he hc
          · exact hd
      · rintro ⟨hin, hnot⟩
        have hrest : id ∉ op.body.deps := hnot _ (Or.inr rfl) hacc
        rcases hin with hin | ⟨e, he | rfl, hc, hid⟩
        · exact Or.inr ⟨⟨Or.inl hin, fun e he => hnot e (Or.inl he)⟩, hrest⟩
        · exact Or.inr ⟨⟨Or.inr ⟨e, he, hc, hid⟩, fun e he => hnot e (Or.inl he)⟩, hrest⟩
        · exact Or.inl hid
  state := hstate
  repairs e he := by
    rw [hentries] at he
    rcases mem_append.1 he with he | he
    · exact L.repairs e he
    · rw [mem_singleton.1 he, hacc, hrepair, Bool.not_not]

theorem Grounded.mem_children (G : Grounded E r) {id : OpId} :
    r.children.contains id = true ↔ r.childrenOf id ≠ ∅ := by
  rw [← mem_iff_contains, G.childKeys.mem_iff]
  constructor
  · rintro ⟨c, hc⟩ h
    change c ∈ r.childrenOf id at hc
    simp [h] at hc
  · exact BTreeSet.exists_mem_of_ne_empty

/-- An op the builder appends is one the storage knows nothing of. -/
theorem Grounded.vacant (G : Grounded E r) {o : Overlay} (hvalid : E.Valid op) (ht : op.body.topicId = t)
    (hstored : reset = false → storedOpState r op = .absent)
    (hslot : ∀ id, slotHolder r o op.body reset = some id → id = op.id) : Vacant (r.base reset t) op := by
  subst ht
  cases reset with
  | true => exact G.vacant_resetTopic hvalid
  | false =>
    have hs := hstored rfl
    unfold storedOpState at hs
    simp only [Bool.and_eq_true, Bool.or_eq_true] at hs
    split at hs
    · cases hs
    · split at hs
      · cases hs
      · rename_i hone
        split at hs
        · cases hs
        · rename_i htwo
          push Not at hone htwo
          refine ⟨Bool.eq_false_iff.2 hone.1, Bool.eq_false_iff.2 hone.2, ?_, Bool.eq_false_iff.2 fun h =>
            G.mem_children.1 h htwo.2⟩
          change r.actorBySeq[(op.body.topicId, op.body.actorId, op.body.actorSeq)]? = none
          cases hi : r.actorBySeq[(op.body.topicId, op.body.actorId, op.body.actorSeq)]? with
          | none => rfl
          | some id =>
            have hid := hslot id (by simp [slotHolder, storedActorIndex, hi])
            exact absurd (hid ▸ hi) htwo.1

/-- An op the builder repairs is one the storage accounts for. -/
theorem Grounded.checkEntry_repair (G : Grounded E r) (hvalid : E.Valid op)
    (hstored : storedOpState r op = .repair)
    (hslot : ∀ id, r.actorBySeq[(op.body.topicId, op.body.actorId, op.body.actorSeq)]? = some id → id = op.id)
    (tips : BTreeMap (TopicId × ActorId) (ℕ × OpId)) (clk : ActorClock) :
    checkEntry r tips op (metaOf op clk) = .ok (some false) ∧ r.accounted (metaOf op clk) = true := by
  have hsame : r.ops[op.id]?.any (· ≠ op) = false := by
    cases hx : r.ops[op.id]? with
    | none => rfl
    | some x =>
      obtain ⟨hid, hx'⟩ := G.valid op.id x hx
      simp [hx'.eq_of_id hvalid hid]
  have hfree : (r.actorBySeq[(op.body.topicId, op.body.actorId, op.body.actorSeq)]?.any (· ≠ op.id)) = false := by
    cases hi : r.actorBySeq[(op.body.topicId, op.body.actorId, op.body.actorSeq)]? with
    | none => rfl
    | some id => simp [hslot id hi]
  unfold storedOpState at hstored
  simp only at hstored
  split at hstored
  · cases hstored
  · rename_i hboth
    have hheld : (r.ops.contains op.id || r.metas.contains op.id ||
        r.actorBySeq[(op.body.topicId, op.body.actorId, op.body.actorSeq)]? == some op.id || r.children.contains
        op.id) = true := by
      simp only [Bool.or_eq_true, beq_iff_eq, G.mem_children]
      split at hstored
      · rename_i hone
        exact Or.inl (Or.inl (by simpa using hone))
      · split at hstored
        · rename_i htwo
          exact htwo.imp (fun h => Or.inr h) fun h => h
        · cases hstored
    refine ⟨?_, ?_⟩
    · unfold checkEntry
      simp only [metaOf, hsame, hfree, refuseIf, Bool.false_eq_true, if_false, ok_bind, hboth, hheld, if_true]
      rfl
    · simp only [Records.accounted, metaOf, Bool.or_eq_true, beq_iff_eq] at hheld ⊢
      exact hheld.imp_left fun h => h.imp_right decide_eq_true

theorem nextState_topicId {st : Option TopicState × Bool} (h : nextState b.state op = .ok st)
    (ht : op.body.topicId = t) (hstate : ∀ s, b.state = some s → s.topicId = t) :
    ∀ s, st.1 = some s → s.topicId = t := by
  intro s hs
  unfold nextState at h
  split at h
  · cases h
    cases hs
    exact ht
  · cases h
    exact hstate s hs
  · rename_i control s' hpay hsome
    cases h
    cases hs
    exact (applyControl_frame s' op control).1.trans (hstate s' hsome)
  · cases h

/-- **The storage takes each op as the builder did.** -/
theorem Laid.step (G : Grounded E r) (L : Laid r reset t done b) (hvalid : E.Valid op) (ht : op.body.topicId = t)
    (horder : ∀ x ∈ done, x.id ≠ op.id ∧ op.id ∉ x.body.deps) (hstep : BuildStep r reset op b b') :
    Laid r reset t (done ++ [op]) b' := by
  cases hstep with
  | kept ps pending =>
    refine ⟨fun e he => ?_, L.overlay, L.written, L.deps, L.heads, L.state, L.repairs⟩
    obtain ⟨hin, hrest⟩ := L.entry e he
    exact ⟨mem_append_left _ hin, hrest⟩
  | @repaired clk ps hreset hstored hdeps hslot =>
    subst hreset
    obtain ⟨hcheck, hacc⟩ := G.checkEntry_repair hvalid hstored hslot b.overlay.tips clk
    exact L.snoc ht horder hdeps hcheck hacc (by simp [hstored]) rfl rfl rfl rfl L.state
  | @appended clk st ps hstored hdeps hslot hpos hstate =>
    have hvacant : Vacant (r.base reset t) op := G.vacant hvalid ht hstored hslot
    have htip : (r.base reset t).actorTip[(op.body.topicId, op.body.actorId)]? =
        storedActorTip r op.body reset := by
      cases reset with
      | false => rfl
      | true =>
        subst ht
        exact (Records.topic_resetTopic r _).2.2 _
    have hnot : ¬(reset = false ∧ storedOpState r op = .repair) := by
      rintro ⟨hr, hs⟩
      rw [hstored hr] at hs
      cases hs
    refine L.snoc ht horder hdeps (hvacant.checkEntry_eq ?_) hvacant.not_accounted
      (by simp [hnot]) rfl rfl rfl rfl (nextState_topicId hstate ht L.state)
    rw [htip]
    exact hpos

/-! ## The finished batch -/

theorem Grounded.expected_eq (G : Grounded E r) : (r.base reset t).topicState t = r.expected reset t ∧
    (r.base reset t).headsOf t = ((r.expected reset t).map (·.heads)).getD ∅ := by
  cases reset with
  | true =>
    obtain ⟨hheads, hstate, -⟩ := Records.topic_resetTopic r t
    exact ⟨hstate, hheads⟩
  | false =>
    refine ⟨rfl, ?_⟩
    change r.headsOf t = ((r.topicState t).map (·.heads)).getD ∅
    cases hst : r.topicState t with
    | none => exact G.noState t hst
    | some st =>
      unfold Records.topicState at hst
      obtain ⟨st', -, rfl⟩ := Option.map_eq_some_iff.1 hst
      rfl

theorem Grounded.laidStart (G : Grounded E r) (ps : Projections) :
    Laid r reset t [] (Build.start (r.expected reset t) ps) where
  entry := by simp [Build.start]
  overlay := by simp [Build.start]
  written rest := by
    change newEntries _ t rest ∅ = (newEntries _ t rest ∅).map _
    cases newEntries (r.base reset t) t rest ∅ <;> rfl
  deps := by simp [Build.start]
  heads id := by
    rw [G.expected_eq.2]
    simp [Build.start, OnFrontier]
  state st h := by
    change r.expected reset t = some st at h
    unfold Records.expected at h
    split at h
    · cases h
    · exact G.states t st h
  repairs := by simp [Build.start]

theorem mem_validateHeads (l : List (Op × OpMeta)) (h c : BTreeSet OpId) (id : OpId) :
    (id ∈ l.foldl (fun h e => h.insert e.1.id) h ↔ id ∈ h ∨ ∃ e ∈ l, e.1.id = id) ∧
      (id ∈ l.foldl (fun c e => c ∪ e.1.body.deps) c ↔ id ∈ c ∨ ∃ e ∈ l, id ∈ e.1.body.deps) := by
  induction l generalizing h c with
  | nil => simp
  | cons e l ih =>
    rw [foldl_cons, foldl_cons, (ih _ c).1, (ih h _).2, ExtTreeSet.mem_insert, ExtTreeSet.mem_union_iff]
    simp only [mem_cons, exists_eq_or_imp, Std.compare_eq_iff_eq]
    constructor
    · constructor
      · rintro ((h | h) | h)
        · exact Or.inr (Or.inl h)
        · exact Or.inl h
        · exact Or.inr (Or.inr h)
      · rintro (h | h | h)
        · exact Or.inl (Or.inr h)
        · exact Or.inl (Or.inl h)
        · exact Or.inr h
    · exact or_assoc

/-- **A finished build passes the storage's checks.** -/
theorem Laid.checks (G : Grounded E r) (L : Laid r reset t done b) (effects : AdmissionEffects) :
    StorageChecks (r.base reset t)
      { topicId := t
        expectedHeads := ((r.expected reset t).map (·.heads)).getD ∅
        expectedTopicState := r.expected reset t
        entries := b.entries
        heads := b.heads
        topicState := if b.stateChanged then b.state.map fun st => { st with heads := b.heads } else none
        effects := effects } where
  batch := by
    have hexpected : ∀ st, r.expected reset t = some st → st.topicId = t := fun st h => (G.laidStart ∅).state st h
    have hnew : ∀ st, (if b.stateChanged then b.state.map fun st => { st with heads := b.heads } else none) =
      some st →
        st.topicId = t ∧ st.heads = b.heads := by
      intro st h
      split at h
      · obtain ⟨st', hst', rfl⟩ := Option.map_eq_some_iff.1 h
        exact ⟨L.state st' hst', rfl⟩
      · cases h
    unfold validateBatch
    simp only [bind_eq_ok, refuseIf_eq_ok, exists_const]
    refine ⟨?_, ?_, ?_, forM_eq_ok.2 fun e he => ?_⟩
    · rw [Option.any_eq_true]
      rintro ⟨st, hst, hne⟩
      simp [hexpected st hst] at hne
    · rw [Option.any_eq_true]
      rintro ⟨st, hst, hne⟩
      simp [(hnew st hst).1] at hne
    · rw [Option.any_eq_true]
      rintro ⟨st, hst, hne⟩
      simp [(hnew st hst).2] at hne
    · obtain ⟨-, ht, clk, hclk⟩ := L.entry e he
      simp only [bind_eq_ok, refuseIf_eq_ok, exists_const]
      exact ⟨by simp [hclk, metaOf, ht], by simp [hclk, metaOf, metaMatches]⟩
  heads := G.expected_eq.2
  state := G.expected_eq.1
  frontier := by
    unfold validateHeads
    refine refuseIf_eq_ok.2 (not_not.2 (ExtTreeSet.ext_mem fun id => ?_))
    dsimp only
    rw [ExtTreeSet.mem_diff_iff, (mem_validateHeads _ _ ∅ id).1, (mem_validateHeads _ ∅ _ id).2, L.heads,
      G.expected_eq.2]
    simp [OnFrontier, and_assoc]
  entries := by
    have h := L.written []
    rw [append_nil] at h
    simpa [newEntries, Except.map] using h
  deps := by
    unfold ensureDepsResolvable
    refine forM_eq_ok.2 fun e he => forM_eq_ok.2 fun d hd => refuseIf_eq_ok.2 ?_
    rintro ⟨hbatch, hres⟩
    obtain ⟨-, -, clk, hclk⟩ := L.entry e he
    rw [ExtTreeSet.mem_toList, hclk] at hd
    rcases L.deps e he d hd with hd | ⟨e', he', rfl⟩
    · rw [hd] at hres
      cases hres
    · exact hbatch (by simpa using ⟨e'.1, ⟨e'.2, he'⟩, rfl⟩)

theorem Build.finish_eq {source : Option PeerId} {effects : Option ReceiveEffects} {batch : AdmittedBatch}
    (h : b.finish t expected source effects = .ok batch) : ∃ eff, batch =
      { topicId := t
        expectedHeads := (expected.map (·.heads)).getD ∅
        expectedTopicState := expected
        entries := b.entries
        heads := b.heads
        topicState := if b.stateChanged then b.state.map fun st => { st with heads := b.heads } else none
        effects := eff } := by
  unfold Build.finish at h
  dsimp only at h
  split at h
  · split at h
    · exact ⟨_, (pure_eq_ok.1 h).symm⟩
    · obtain ⟨eff, -, hbatch⟩ := bind_eq_ok.1 h
      exact ⟨eff, (pure_eq_ok.1 hbatch).symm⟩
  · exact ⟨_, (pure_eq_ok.1 h).symm⟩

variable {cache : MembershipCache} {source : Option PeerId} {ops : List Op} {effects : Option ReceiveEffects}
  {built : BuiltBatch}

/-- What `build_batch` returns passes the storage's checks, and both tell repairs from appends alike. -/
theorem Grounded.buildBatch_checks (G : Grounded E r) (hver : ∀ op ∈ ops, op.id ∈ verified → E.Valid op)
    (h : buildBatch E V n r cache source ops verified reset effects = .ok (some built)) :
    StorageChecks (r.base reset built.batch.topicId) built.batch ∧ ∀ e ∈ built.batch.entries,
      (r.base reset built.batch.topicId).accounted e.2 =
        decide (reset = false ∧ storedOpState r e.1 = .repair) := by
  unfold buildBatch at h
  obtain ⟨out, hout, h⟩ := bind_eq_ok.1 h
  have O := topologicalOps_ordered hout
  cases hhead : out.head? with
  | none =>
    rw [hhead] at h
    cases h
  | some first =>
    rw [hhead] at h
    obtain ⟨_, htopic, h⟩ := bind_eq_ok.1 h
    obtain ⟨-, -, h⟩ := bind_eq_ok.1 h
    obtain ⟨b, hfold, h⟩ := bind_eq_ok.1 h
    obtain ⟨batch, hfinish, h⟩ := bind_eq_ok.1 h
    cases h
    have htopic' : ∀ op ∈ out, op.body.topicId = first.body.topicId := by
      intro op hop
      by_contra hne
      exact refuseIf_eq_ok.1 htopic (any_eq_true.2 ⟨op, hop, by simpa using hne⟩)
    have L : Laid r reset first.body.topicId out b := by
      refine Post.of_ok (Q := fun _ => True)
        (Post.foldlM (fun done b => Laid r reset first.body.topicId done b) (G.laidStart _) ?_) hfold
      rintro done op rest b hsplit L
      subst hsplit
      have hop : op ∈ done ++ op :: rest := by simp
      refine buildOp_step.mono ?_ fun _ h => h
      rintro b' ⟨hcheck, hstep⟩
      have hvalid : E.Valid op := by
        by_cases hin : op.id ∈ verified
        · exact hver op (O.mem op hop) hin
        · exact hcheck hin
      exact L.step G hvalid (htopic' op hop) (fun x hx => ⟨O.fresh x hx, O.not_dep x hx⟩) hstep
    obtain ⟨eff, rfl⟩ := Build.finish_eq hfinish
    exact ⟨L.checks G eff, L.repairs⟩

/-- **A batch that was built commits**, on a store that lost any op and metadata records: every check of the
storage passes, it repairs exactly the entries the builder repaired, and a write is refused only for want of a
resource. -/
theorem built_commits {log : Oplog} (h : Reached E log) (hlost : Lost log.inner.toRecords r)
    (hver : ∀ op ∈ ops, op.id ∈ verified → E.Valid op)
    (hbuild : buildBatch E V n r cache source ops verified reset effects = .ok (some built)) :
    let t := built.batch.topicId
    let inner := { log.inner with toRecords := r }
    StorageChecks (r.base reset t) built.batch ∧
      (∀ e ∈ built.batch.entries,
        (r.base reset t).accounted e.2 = decide (reset = false ∧ storedOpState r e.1 = .repair)) ∧
      (reset = false → ∀ reserve quota,
        Post (admitBatchLocked E reserve quota inner built.batch).1 (fun _ => True)
          (CommitFails reserve built.batch)) ∧
      (reset = true → ∀ reserve current eviction, r.topicState t = some current →
        Post (resetTopicAndAdmit E reserve inner t current built.batch eviction) (fun _ => True)
          (CommitFails reserve built.batch)) := by
  have L := h.logOK
  have G := L.records.grounded.lost hlost
  have B : BufferOK False r log.inner.toPendingIndex := ⟨L.buffer.ok, False.elim, False.elim⟩
  obtain ⟨C, hsame⟩ := G.buildBatch_checks hver hbuild
  refine ⟨C, hsame, ?_, ?_⟩
  · rintro rfl reserve quota
    have C' : StorageChecks ({ log.inner with toRecords := r } : MemoryInner).toRecords built.batch := C
    rcases C'.commit (E := E) reserve quota B with ⟨e, hfail, hres⟩ | ⟨inner', hres, -⟩
    · rw [hres]
      exact Post.error hfail
    · rw [hres]
      exact Post.ok trivial
  · rintro rfl reserve current eviction hcurrent
    have C' : StorageChecks (({ log.inner with toRecords := r } : MemoryInner).toRecords.resetTopic
      built.batch.topicId) built.batch := C
    refine (C'.resetTopicAndAdmit_post B).mono (fun _ _ => trivial) ?_
    rintro e (hfail | ⟨-, hne⟩)
    · exact hfail
    · exact absurd hcurrent hne

theorem lost_meta (r : Records) (id : OpId) : Lost r { r with metas := r.metas.erase id } where
  ops _ _ h := h
  metas _ _ h := (BTreeMap.of_getElem?_erase h).2
  rest := rfl

/-! A store that lost the metadata of `pairEvent` receives it again, together with the first op that depends
on it. -/

/-- The node that holds the first three ops. -/
def halfNode : Node :=
  (Node.fresh (IdType.ofNat 1) .memory).run pairEnv
    [{ op := .receiveOps none [pairGenesis, pairEvent, pairRemoval] none }]

/-- Its oplog. -/
def halfLog : Oplog := halfNode.oplog halfNode.storage.inner

/-- Its records without the metadata of the event. -/
def halfRecords : Records := { halfLog.inner.toRecords with metas := halfLog.inner.metas.erase pairEvent.id }

theorem halfLog_reached : Reached pairEnv halfLog := by
  unfold halfLog halfNode
  exact Reached.active _ _ _

theorem halfRecords_lost : Lost halfLog.inner.toRecords halfRecords := by
  unfold halfRecords
  exact lost_meta _ _

theorem built_commits_half :
    ∃ built, buildBatch pairEnv {} 0 halfRecords {} none [pairMerge, pairEvent] ∅ false none = .ok (some built) ∧
    built.batch.entries.map (fun e => (e.1.id, halfRecords.accounted e.2)) =
      [(pairEvent.id, true), (pairMerge.id, false)] ∧ StorageChecks halfRecords built.batch := by
  have hrun : (buildBatch pairEnv {} 0 halfRecords {} none [pairMerge, pairEvent] ∅ false none).toOption.join.any
    (fun built =>
      decide (built.batch.entries.map (fun e => (e.1.id, halfRecords.accounted e.2)) =
        [(pairEvent.id, true), (pairMerge.id, false)])) = true := by decide +kernel
  cases hbuild : buildBatch pairEnv {} 0 halfRecords {} none [pairMerge, pairEvent] ∅ false none with
  | error e =>
    rw [hbuild] at hrun
    cases hrun
  | ok res =>
    cases res with
    | none =>
      rw [hbuild] at hrun
      cases hrun
    | some built =>
      rw [hbuild] at hrun
      have hchecks := built_commits halfLog_reached halfRecords_lost (by simp) hbuild
      exact ⟨built, rfl, of_decide_eq_true hrun, hchecks.1⟩

end Irokle
