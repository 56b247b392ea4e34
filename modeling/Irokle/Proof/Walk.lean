import Irokle.Proof.Records

/-!
# Projecting the membership of an ancestry

`project_membership` walks the ancestry of some dependencies, stops at ops whose state is known,
and folds the controls it met into the merge of those states. The result is the state of the whole
ancestry, whatever projections it started from; it fails only when the workspace is refused.

* `projectWalk_post` — the walk meets or skips over every ancestor, within its fuel;
* `projectMembership_post` — the state it returns, and the projections it keeps.
-/

namespace Irokle

open Std Outcome List ExtTreeSet

/-- The overlay and the store together hold the branch `S`. -/
structure Sees (E : Env) (r : Records) (o : Overlay) (g : Op) (γ : TopicGenesis) (S : Set Op) : Prop where
  branch : Branch E g γ S
  metas : ∀ x ∈ S, ∃ m, metaProjected r o x.id = .ok m ∧ MetaOK E x m
  ops : ∀ x ∈ S, opProjected r o x.id = .ok x

/-- Each projection is the state at the op it is stored under, on the branch of `g`. -/
def BranchProj (E : Env) (g : Op) (γ : TopicGenesis) (ps : Projections) : Prop :=
  ∀ (id : OpId) st, ps[id]? = some st → ∃ y, E.Valid y ∧ y.id = id ∧ StateOf (insert y (E.past y)) g γ st

/-- Another writer may race a write. -/
def Env.Raced (E : Env) : Prop :=
  (∃ n k, E.faults n k = some .conflict) ∨ ∃ n deps k, E.holds n deps k = some .conflict

/-- The memory budget refused a reservation, or a write lost its race. -/
def Env.FromFault (E : Env) (e : Error) : Prop :=
  (∃ domain required limit, e = .memoryPressure domain required limit) ∨ e = .admissionConflict ∧ E.Raced

/-- An error that reports no commit, and blames the author's membership only when `stranger` holds. -/
def Error.Refuses (stranger : Prop) : Error → Prop
  | .notTopicMember => stranger
  | .admissionCommitted _ _ => False
  | _ => True

theorem Error.Refuses.mono {P Q : Prop} {e : Error} (h : e.Refuses P) (hPQ : P → Q) : e.Refuses Q := by
  cases e <;> first | exact hPQ h | exact h

theorem Env.FromFault.refuses {E : Env} {P : Prop} {e : Error} (h : E.FromFault e) : e.Refuses P := by
  rcases h with ⟨domain, required, limit, rfl⟩ | ⟨rfl, -⟩ <;> trivial

variable {E : Env} {n : ℕ} {r : Records} {o : Overlay} {g x y op : Op} {γ : TopicGenesis} {S : Set Op}
  {ps : Projections} {deps : BTreeSet OpId} {w : Walk} {m : OpMeta}

theorem Fault.error_fromFault {f : Fault} (h : f = .conflict → E.Raced) : E.FromFault f.error := by
  cases f with
  | pressure domain required limit => exact Or.inl ⟨domain, required, limit, rfl⟩
  | conflict => exact Or.inr ⟨rfl, h rfl⟩

theorem workspaceCharge_post {used bytes : ℕ} :
    Post (workspaceCharge E n deps used bytes) (fun _ => True) E.FromFault := by
  unfold workspaceCharge
  dsimp only
  split
  · exact Post.error (Or.inl ⟨_, _, _, rfl⟩)
  · split
    · rename_i fault hfault
      obtain ⟨k, -, hk⟩ := exists_of_findSome?_eq_some hfault
      exact Post.error (Fault.error_fromFault fun h => Or.inr ⟨n, deps, k, h ▸ hk⟩)
    · exact Post.ok trivial

namespace MetaOK

variable (h : MetaOK E op m)

include h

theorem deps_eq : m.deps = op.body.deps := by rw [h.eq]; rfl

theorem topicId_eq : m.topicId = op.body.topicId := by rw [h.eq]; rfl

theorem actorId_eq : m.actorId = op.body.actorId := by rw [h.eq]; rfl

theorem actorSeq_eq : m.actorSeq = op.body.actorSeq := by rw [h.eq]; rfl

theorem generation_eq : m.generation = op.body.generation := by rw [h.eq]; rfl

end MetaOK

/-! ## The walk -/

/-- What visiting `x` adds to a walk, and the ids it puts on the stack. -/
structure Visited (ps : Projections) (w : Walk) (x : Op) (w' : Walk) (next : List OpId) : Prop where
  seen : w'.seen = w.seen.insert x.id
  known : ps.contains x.id = true → w'.known = w.known.insert x.id ∧ w'.folded = w.folded ∧ next = []
  walked : ps.contains x.id = false → w'.known = w.known ∧ (∀ d, d ∈ next ↔ d ∈ x.body.deps) ∧
    next.length = x.body.deps.size ∧
    (w'.folded = w.folded ++ [x] ∨ (∃ e, x.body.payload = .event e) ∧ w'.folded = w.folded)

theorem projectVisit_post (H : Sees E r o g γ S) (hx : x ∈ S) :
    Post (projectVisit E n r o g.body.topicId deps ps w x.id)
      (fun res => Visited ps w x res.1 res.2) E.FromFault := by
  obtain ⟨m, hm, hok⟩ := H.metas x hx
  unfold projectVisit
  refine workspaceCharge_post.bind fun used _ => ?_
  dsimp only
  by_cases hps : ps.contains x.id
  · rw [if_pos hps]
    exact Post.pure ⟨rfl, fun _ => ⟨rfl, rfl, rfl⟩, fun h => by simp [hps] at h⟩
  · have hnext : ∀ d, d ∈ m.deps.toList.reverse ↔ d ∈ x.body.deps := by
      intro d
      rw [mem_reverse, mem_toList, hok.deps_eq]
    have hlen : m.deps.toList.reverse.length = x.body.deps.size := by
      rw [length_reverse, length_toList, hok.deps_eq]
    rw [if_neg hps, hm, ok_bind]
    refine refuseIf_bind (fun hne => absurd (hok.topicId_eq.trans (H.branch.topic x hx)) hne) fun _ => ?_
    refine workspaceCharge_post.bind fun used _ => ?_
    rw [H.ops x hx, ok_bind]
    cases hp : x.body.payload with
    | event e =>
      exact Post.pure ⟨rfl, fun h => absurd h hps, fun _ => ⟨rfl, hnext, hlen, Or.inr ⟨⟨e, hp⟩, rfl⟩⟩⟩
    | genesis γ' =>
      refine workspaceCharge_post.bind fun used _ => ?_
      exact Post.pure ⟨rfl, fun h => absurd h hps, fun _ => ⟨rfl, hnext, hlen, Or.inl rfl⟩⟩
    | control c =>
      refine workspaceCharge_post.bind fun used _ => ?_
      exact Post.pure ⟨rfl, fun h => absurd h hps, fun _ => ⟨rfl, hnext, hlen, Or.inl rfl⟩⟩

/-- Every id met is below `deps`; a visited op is known, or its dependencies are met and its control
is folded. -/
structure WalkInv (E : Env) (S : Set Op) (ps : Projections) (deps : BTreeSet OpId) (stack : List OpId)
    (w : Walk) : Prop where
  queued : ∀ id ∈ stack, ∃ x ∈ S, x.id = id ∧ x ∈ E.below deps
  seen : ∀ id ∈ w.seen, ∃ x ∈ S, x.id = id ∧ x ∈ E.below deps
  known : ∀ id ∈ w.known, id ∈ w.seen ∧ ps.contains id = true
  folded : ∀ x ∈ w.folded, x ∈ S ∧ x.id ∈ w.seen
  start : ∀ d ∈ deps, d ∈ w.seen ∨ d ∈ stack
  walked : ∀ x ∈ S, x.id ∈ w.seen → x.id ∈ w.known ∨
    (∀ d ∈ x.body.deps, d ∈ w.seen ∨ d ∈ stack) ∧ (x ∈ w.folded ∨ ∃ e, x.body.payload = .event e)

theorem WalkInv.pop {id : OpId} {stack : List OpId} (h : WalkInv E S ps deps (id :: stack) w)
    (hseen : id ∈ w.seen) :
    WalkInv E S ps deps stack w := by
  have hstill : ∀ d, d ∈ w.seen ∨ d ∈ id :: stack → d ∈ w.seen ∨ d ∈ stack := by
    rintro d (hd | hd)
    · exact Or.inl hd
    · rcases mem_cons.1 hd with rfl | hd
      · exact Or.inl hseen
      · exact Or.inr hd
  refine ⟨fun d hd => h.queued d (by simp [hd]), h.seen, h.known, h.folded,
    fun d hd => hstill d (h.start d hd), ?_⟩
  intro x hx hxs
  exact (h.walked x hx hxs).imp_right fun ⟨hdeps, hf⟩ => ⟨fun d hd => hstill d (hdeps d hd), hf⟩

theorem below_of_dep (hx : E.Valid x) (hy : E.Valid y) (hdep : x.id ∈ y.body.deps) (hbelow : y ∈ E.below deps) :
    x ∈ E.below deps := by
  have hxy : x ∈ E.past y := (mem_past_iff hy).2 ⟨x, hx, hdep, Or.inl rfl⟩
  obtain ⟨z, hz, hzd, rfl | hyz⟩ := hbelow
  · exact ⟨y, hy, hzd, Or.inr hxy⟩
  · exact ⟨z, hz, hzd, Or.inr (past_trans hxy hyz)⟩

theorem WalkInv.visit {stack next : List OpId} {w' : Walk} (B : Branch E g γ S) (hx : x ∈ S)
    (h : WalkInv E S ps deps (x.id :: stack) w) (hv : Visited ps w x w' next) :
    WalkInv E S ps deps (next ++ stack) w' := by
  obtain ⟨x', hx', hid, hbelow⟩ := h.queued x.id (by simp)
  obtain rfl := B.injOn hx' hx hid
  have hseen : ∀ d, d ∈ w'.seen ↔ d = x'.id ∨ d ∈ w.seen := by
    intro d
    rw [hv.seen, mem_insert, Std.compare_eq_iff_eq, eq_comm]
  have hmeet : ∀ d, d ∈ w.seen ∨ d ∈ x'.id :: stack → d ∈ w'.seen ∨ d ∈ next ++ stack := by
    rintro d (hd | hd)
    · exact Or.inl ((hseen d).2 (Or.inr hd))
    · rcases mem_cons.1 hd with rfl | hd
      · exact Or.inl ((hseen _).2 (Or.inl rfl))
      · exact Or.inr (mem_append_right _ hd)
  have hnew : ∀ id ∈ w'.seen, ∃ x ∈ S, x.id = id ∧ x ∈ E.below deps := by
    intro id hid
    rcases (hseen id).1 hid with rfl | hid
    · exact ⟨x', hx, rfl, hbelow⟩
    · exact h.seen id hid
  by_cases hps : ps.contains x'.id
  · obtain ⟨hknown, hfolded, rfl⟩ := hv.known hps
    refine ⟨?_, hnew, ?_, ?_, fun d hd => hmeet d (h.start d hd), ?_⟩
    · exact fun id hid => h.queued id (by simpa using Or.inr hid)
    · intro id hid
      rw [hknown, mem_insert, Std.compare_eq_iff_eq] at hid
      rcases hid with rfl | hid
      · exact ⟨(hseen _).2 (Or.inl rfl), hps⟩
      · exact ⟨(hseen _).2 (Or.inr (h.known id hid).1), (h.known id hid).2⟩
    · intro y hy
      rw [hfolded] at hy
      exact ⟨(h.folded y hy).1, (hseen _).2 (Or.inr (h.folded y hy).2)⟩
    · intro y hy hys
      rcases (hseen _).1 hys with heq | hys
      · exact Or.inl (by rw [hknown, heq]; simp)
      · rcases h.walked y hy hys with hk | ⟨hdeps, hf⟩
        · exact Or.inl (by rw [hknown]; simp [hk])
        · exact Or.inr ⟨fun d hd => hmeet d (hdeps d hd), hfolded ▸ hf⟩
  · obtain ⟨hknown, hnext, -, hfold⟩ := hv.walked (Bool.eq_false_iff.2 hps)
    have hsub : ∀ y ∈ w.folded, y ∈ w'.folded := by
      intro y hy
      rcases hfold with hf | ⟨-, hf⟩ <;> rw [hf]
      · exact mem_append_left _ hy
      · exact hy
    refine ⟨?_, hnew, ?_, ?_, fun d hd => hmeet d (h.start d hd), ?_⟩
    · intro id hid
      rcases mem_append.1 hid with hid | hid
      · rw [hnext] at hid
        obtain ⟨z, hz, rfl, -⟩ := (B.links x' hx).deps id hid
        exact ⟨z, hz, rfl, below_of_dep (B.valid hz) (B.valid hx) hid hbelow⟩
      · exact h.queued id (by simp [hid])
    · intro id hid
      rw [hknown] at hid
      exact ⟨(hseen _).2 (Or.inr (h.known id hid).1), (h.known id hid).2⟩
    · intro y hy
      have hor : y ∈ w.folded ∨ y = x' := by
        rcases hfold with hf | ⟨-, hf⟩ <;> rw [hf] at hy
        · simpa using hy
        · exact Or.inl hy
      rcases hor with hy | rfl
      · exact ⟨(h.folded y hy).1, (hseen _).2 (Or.inr (h.folded y hy).2)⟩
      · exact ⟨hx, (hseen _).2 (Or.inl rfl)⟩
    · intro y hy hys
      rcases (hseen _).1 hys with heq | hys
      · obtain rfl := B.injOn hy hx heq
        refine Or.inr ⟨fun d hd => Or.inr (mem_append_left _ ((hnext d).2 hd)), ?_⟩
        rcases hfold with hf | ⟨he, -⟩
        · exact Or.inl (by rw [hf]; simp)
        · exact Or.inr he
      · rcases h.walked y hy hys with hk | ⟨hdeps, hf⟩
        · exact Or.inl (hknown ▸ hk)
        · exact Or.inr ⟨fun d hd => hmeet d (hdeps d hd), hf.imp_left (hsub y)⟩

/-! ## Fuel -/

/-- The edges out of the ops a walk has not seen. -/
def unseenEdges {β : Type} (f : β → ℕ) (l : List (OpId × β)) (seen : OpId → Bool) : ℕ :=
  (l.map fun e => if seen e.1 then 0 else f e.2).sum

theorem unseenEdges_mono {β : Type} {f : β → ℕ} (l : List (OpId × β)) {seen seen' : OpId → Bool}
    (h : ∀ id, seen id = true → seen' id = true) : unseenEdges f l seen' ≤ unseenEdges f l seen := by
  refine sum_le_sum fun e _ => ?_
  by_cases hs : seen e.1
  · simp [hs, h _ hs]
  · rw [if_neg hs]
    split <;> omega

/-- Seeing an op takes its edges off. -/
theorem unseenEdges_seen {β : Type} {f : β → ℕ} {l : List (OpId × β)} {seen seen' : OpId → Bool}
    {id : OpId} {v : β}
    (h : ∀ id, seen id = true → seen' id = true) (he : (id, v) ∈ l) (hseen : seen id = false)
    (hseen' : seen' id = true) :
    unseenEdges f l seen' + f v ≤ unseenEdges f l seen := by
  induction l with
  | nil => cases he
  | cons e l ih =>
    have hle := unseenEdges_mono (f := f) l h
    have hhead : (if seen' e.1 then 0 else f e.2) ≤ if seen e.1 then 0 else f e.2 := by
      by_cases hs : seen e.1
      · simp [hs, h _ hs]
      · rw [if_neg hs]
        split <;> omega
    unfold unseenEdges at hle ih ⊢
    simp only [map_cons, sum_cons]
    rcases mem_cons.1 he with rfl | he
    · simp only [hseen, hseen', if_true, Bool.false_eq_true, if_false]
      omega
    · have := ih he
      omega

theorem mem_edges_of_metaProjected {id : OpId} (h : metaProjected r o id = .ok m) :
    (id, m) ∈ r.metas.toList ++ o.metas.toList := by
  unfold metaProjected at h
  rw [mem_append, ExtTreeMap.mem_toList_iff_getElem?_eq_some, ExtTreeMap.mem_toList_iff_getElem?_eq_some]
  cases ho : o.metas[id]? with
  | none =>
    cases hr : r.metas[id]? with
    | none => simp [ho, hr] at h
    | some m' =>
      simp only [ho, hr, Option.none_or, Except.ok.injEq] at h
      exact Or.inl (h ▸ rfl)
  | some m' =>
    simp only [ho, Option.some_or, Except.ok.injEq] at h
    exact Or.inr (h ▸ rfl)

/-- The walk ends with nothing left to meet, and its fuel suffices: each round pops an id, and the ids
pushed leave over edges not walked before. -/
theorem projectWalk_post (H : Sees E r o g γ S) {fuel : ℕ} {stack : List OpId} (h : WalkInv E S ps deps stack w)
    (hfuel : stack.length + unseenEdges (·.deps.size) (r.metas.toList ++ o.metas.toList) w.seen.contains < fuel) :
    Post (projectWalk E n r o g.body.topicId deps ps fuel stack w) (WalkInv E S ps deps []) E.FromFault := by
  induction fuel generalizing stack w with
  | zero => exact absurd hfuel (Nat.not_lt_zero _)
  | succ fuel ih =>
    cases stack with
    | nil => exact Post.ok h
    | cons id stack =>
      rw [projectWalk]
      rw [length_cons] at hfuel
      split
      · rename_i hseen
        exact ih (h.pop hseen) (by omega)
      · rename_i hseen
        obtain ⟨x, hx, rfl, -⟩ := h.queued id (by simp)
        refine (projectVisit_post H hx).bind fun res hv => ih (h.visit H.branch hx hv) ?_
        rw [hv.seen, length_append]
        have hmono : ∀ id, w.seen.contains id = true → (w.seen.insert x.id).contains id = true := by
          intro id hid
          simp [hid]
        by_cases hps : ps.contains x.id
        · obtain ⟨-, -, hnil⟩ := hv.known hps
          have := unseenEdges_mono (f := fun m : OpMeta => m.deps.size) (r.metas.toList ++ o.metas.toList) hmono
          rw [hnil, length_nil]
          omega
        · obtain ⟨-, -, hlen, -⟩ := hv.walked (Bool.eq_false_iff.2 hps)
          obtain ⟨m, hm, hok⟩ := H.metas x hx
          have := unseenEdges_seen (f := fun m : OpMeta => m.deps.size) hmono (mem_edges_of_metaProjected hm)
            (Bool.eq_false_iff.2 hseen) (by simp)
          rw [hok.deps_eq] at this
          omega

/-! ## The state of the walk -/

/-- The ops named by `ids`, with their ancestors. -/
def Env.belowList (E : Env) (ids : List OpId) : Set Op :=
  {x | ∃ y, E.Valid y ∧ y.id ∈ ids ∧ (x = y ∨ x ∈ E.past y)}

theorem belowList_cons {id : OpId} {ids : List OpId} (hy : E.Valid y) (hid : y.id = id) :
    E.belowList (id :: ids) = insert y (E.past y) ∪ E.belowList ids := by
  ext x
  constructor
  · rintro ⟨z, hz, hmem, hxz⟩
    rcases mem_cons.1 hmem with hzid | hmem
    · obtain rfl := hz.eq_of_id hy (hzid.trans hid.symm)
      exact Or.inl hxz
    · exact Or.inr ⟨z, hz, hmem, hxz⟩
  · rintro (hxy | ⟨z, hz, hmem, hxz⟩)
    · exact ⟨y, hy, by simp [hid], hxy⟩
    · exact ⟨z, hz, mem_cons_of_mem _ hmem, hxz⟩

/-- The projections hold the state of each of some ops. -/
def Known (E : Env) (g : Op) (γ : TopicGenesis) (ps : Projections) (ids : List OpId) : Prop :=
  ∀ id ∈ ids, ∃ st y, ps[id]? = some st ∧ E.Valid y ∧ y.id = id ∧ StateOf (insert y (E.past y)) g γ st

theorem BranchProj.known (hps : BranchProj E g γ ps) {ids : List OpId}
    (hids : ∀ id ∈ ids, ps.contains id = true) :
    Known E g γ ps ids := by
  intro id hid
  obtain ⟨st, hst⟩ : ∃ st, ps[id]? = some st := by
    have := hids id hid
    rwa [ExtTreeMap.contains_eq_isSome_getElem?, Option.isSome_iff_exists] at this
  obtain ⟨y, hy, hyid, hstate⟩ := hps id st hst
  exact ⟨st, y, hst, hy, hyid, hstate⟩

/-- Merging known states gives the state of all they cover. -/
theorem mergeStates_some {ids : List OpId} (hps : Known E g γ ps ids) {V : Set Op} {st : TopicState}
    (hst : StateOf V g γ st) :
    Post (mergeStates ps ids (some st)) (StateOf (V ∪ E.belowList ids) g γ) fun _ => False := by
  induction ids generalizing V st with
  | nil =>
    have : E.belowList [] = ∅ := by simp [Env.belowList]
    simpa [mergeStates, Post, this] using hst
  | cons id ids ih =>
    obtain ⟨incoming, y, hin, hy, hid, hstate⟩ := hps id mem_cons_self
    rw [mergeStates, hin]
    refine refuseIf_bind (fun hne => hne (hst.genesis.trans hstate.genesis.symm)) fun _ => ?_
    have := ih (fun i hi => hps i (mem_cons_of_mem _ hi)) (hst.mergeState hstate)
    rwa [Set.union_assoc, ← belowList_cons hy hid] at this

theorem mergeStates_none {ids : List OpId} (hps : Known E g γ ps ids) (hne : ids ≠ []) :
    Post (mergeStates ps ids none) (StateOf (E.belowList ids) g γ) fun _ => False := by
  cases ids with
  | nil => exact absurd rfl hne
  | cons id ids =>
    obtain ⟨incoming, y, hin, hy, hid, hstate⟩ := hps id mem_cons_self
    rw [mergeStates, hin, belowList_cons hy hid]
    exact mergeStates_some (fun i hi => hps i (mem_cons_of_mem _ hi)) hstate

theorem applyFolded_post {V : Set Op} {st : TopicState} (B : Branch E g γ S) (hop : op ∈ S)
    (hst : StateOf V g γ st) :
    Post (applyFolded st op) (StateOf (insert op V) g γ) fun _ => False := by
  unfold applyFolded
  cases hp : op.body.payload with
  | genesis γ' =>
    obtain rfl := B.eq_root_of_payload hop hp
    rw [if_neg (by simp [hst.genesis])]
    exact Post.ok (hst.insert_other (by simp [hp]))
  | control c => exact Post.ok (hst.applyControl hp)
  | event e => exact Post.ok (hst.insert_other (by simp [hp]))

theorem foldlM_applyFolded {V : Set Op} {st : TopicState} {l : List Op} (B : Branch E g γ S)
    (hl : ∀ op ∈ l, op ∈ S) (hst : StateOf V g γ st) :
    Post (l.foldlM applyFolded st) (StateOf (V ∪ {x | x ∈ l}) g γ) fun _ => False := by
  refine Post.foldlM (fun done st => StateOf (V ∪ {x | x ∈ done}) g γ st) (by simpa using hst) ?_
  intro done op rest st hsplit hst
  have hset : V ∪ {x | x ∈ done ++ [op]} = insert op (V ∪ {x | x ∈ done}) := by
    ext x
    simp only [Set.mem_union, Set.mem_ofPred_eq, mem_append, mem_singleton, Set.mem_insert_iff]
    tauto
  rw [hset]
  exact applyFolded_post B (hl op (by simp [hsplit])) hst

/-- What a finished walk skipped lies below a known op, or carries no control. -/
theorem WalkInv.covers (B : Branch E g γ S) (h : WalkInv E S ps deps [] w) (hx : x ∈ E.below deps)
    (hdeps : ∀ d ∈ deps, ∃ x ∈ S, x.id = d) :
    x ∈ w.folded ∨ (∃ e, x.body.payload = .event e) ∨ x ∈ E.belowList w.known.toList := by
  have seen : ∀ {d}, d ∈ w.seen ∨ d ∈ ([] : List OpId) → d ∈ w.seen := by simp
  have key : ∀ (y : Op), y ∈ S → y.id ∈ w.seen → x = y ∨ x ∈ E.past y →
      x ∈ w.folded ∨ (∃ e, x.body.payload = .event e) ∨ x ∈ E.belowList w.known.toList := by
    intro y
    induction hn : y.body.generation using Nat.strong_induction_on generalizing y with
    | _ n ih =>
      intro hy hseen hxy
      rcases h.walked y hy hseen with hk | ⟨hd, hf⟩
      · exact Or.inr (Or.inr ⟨y, B.valid hy, by simpa using hk, hxy⟩)
      · rcases hxy with rfl | hxy
        · exact hf.imp_right Or.inl
        · obtain ⟨z, hz, hdep, hxz⟩ := (mem_past_iff (B.valid hy)).1 hxy
          have hzS := B.mem_of_dep hy hz hdep
          have hlt := B.generation_lt ⟨hzS, hy, hdep⟩
          exact ih _ (hn ▸ hlt) z rfl hzS (seen (hd _ hdep)) hxz
  obtain ⟨y, hy, hdep, hxy⟩ := hx
  obtain ⟨y', hy', hid⟩ := hdeps _ hdep
  obtain rfl := (B.valid hy').eq_of_id hy hid
  exact key y' hy' (seen (h.start _ hdep)) hxy

/-- The state of what a finished walk collected is the state below `deps`. -/
theorem WalkInv.stateOf {st : TopicState} (B : Branch E g γ S) (h : WalkInv E S ps deps [] w)
    (hdeps : ∀ d ∈ deps, ∃ x ∈ S, x.id = d)
    (hst : StateOf (E.belowList w.known.toList ∪ {x | x ∈ w.folded}) g γ st) : StateOf (E.below deps) g γ st := by
  have hbelow : ∀ y ∈ S, y.id ∈ w.seen → y ∈ E.below deps := by
    intro y hy hs
    obtain ⟨y', hy', hid, hb⟩ := h.seen _ hs
    rwa [← B.injOn hy' hy hid]
  have hsub : E.belowList w.known.toList ∪ {x | x ∈ w.folded} ⊆ E.below deps := by
    rintro x (⟨y, hy, hk, hxy⟩ | hx)
    · obtain ⟨y', hy', hid, hb⟩ := h.seen _ (h.known _ (by simpa using hk)).1
      obtain rfl := (B.valid hy').eq_of_id hy hid
      rcases hxy with rfl | hxy
      · exact hb
      · obtain ⟨z, hz, hzd, hyz⟩ := hb
        refine ⟨z, hz, hzd, Or.inr ?_⟩
        rcases hyz with rfl | hyz
        · exact hxy
        · exact past_trans hxy hyz
    · exact hbelow x (h.folded x hx).1 (h.folded x hx).2
  have hctl : ∀ x ∈ E.below deps, (∃ c, x.body.payload = .control c) →
      x ∈ E.belowList w.known.toList ∪ {x | x ∈ w.folded} := by
    rintro x hx ⟨c, hc⟩
    rcases h.covers B hx hdeps with hf | ⟨e, he⟩ | hk
    · exact Or.inr hf
    · rw [hc] at he
      cases he
    · exact Or.inl hk
  refine hst.of_dominated hsub ?_ ?_
  · rintro p ⟨k, b⟩ ⟨x, hx, rfl, hpay⟩
    refine ⟨_, ⟨x, hctl x hx ?_, rfl, hpay⟩, le_rfl⟩
    rcases hpay with ⟨hp, -⟩ | ⟨hp, -⟩ <;> exact ⟨_, hp⟩
  · rintro ⟨k, b⟩ ⟨x, hx, rfl, hpay⟩
    exact ⟨_, ⟨x, hctl x hx ⟨_, hpay⟩, rfl, hpay⟩, le_rfl⟩

/-! ## The projection -/

theorem BranchProj.foldl_erase (hps : BranchProj E g γ ps) (l : List OpId) :
    BranchProj E g γ (l.foldl (fun ps id => ps.erase id) ps) := by
  induction l generalizing ps with
  | nil => exact hps
  | cons id l ih =>
    exact ih fun id' st h => hps id' st (BTreeMap.of_getElem?_erase h).2

theorem BranchProj.insert {st : TopicState} (hps : BranchProj E g γ ps) (hy : E.Valid y)
    (hst : StateOf (insert y (E.past y)) g γ st) : BranchProj E g γ (ps.insert y.id st) := by
  intro id st' h
  rcases BTreeMap.of_getElem?_insert h with ⟨rfl, rfl⟩ | ⟨-, h⟩
  · exact ⟨y, hy, rfl, hst⟩
  · exact hps id st' h

/-- Below a single dependency lie the op and its ancestors. -/
theorem below_singleton (hy : E.Valid y) (hdeps : deps.toList = [y.id]) : E.below deps = insert y (E.past y) := by
  have hmem : ∀ d, d ∈ deps ↔ d = y.id := by
    intro d
    rw [← mem_toList, hdeps, mem_singleton]
  ext x
  constructor
  · rintro ⟨z, hz, hzd, hxz⟩
    obtain rfl := hz.eq_of_id hy ((hmem _).1 hzd)
    exact hxz
  · intro hxy
    exact ⟨y, hy, (hmem _).2 rfl, hxy⟩

theorem keepProjection_branchProj {known : BTreeSet OpId} {st : TopicState} (B : Branch E g γ S)
    (hps : BranchProj E g γ ps) (hdeps : ∀ d ∈ deps, ∃ x ∈ S, x.id = d) (hst : StateOf (E.below deps) g γ st) :
    BranchProj E g γ (keepProjection deps known st ps) := by
  unfold keepProjection
  split
  · rename_i dep hlist
    have hdep : dep ∈ deps := by
      rw [← mem_toList, hlist]
      simp
    obtain ⟨y, hy, rfl⟩ := hdeps dep hdep
    rw [below_singleton (B.valid hy) hlist] at hst
    dsimp only
    split
    · exact (hps.foldl_erase _).insert (B.valid hy) hst
    · exact hps.foldl_erase _
  · exact hps

/-- What a projection may fail with: refused workspace, or nothing to project. -/
def ProjectFails (E : Env) (deps : BTreeSet OpId) (e : Error) : Prop :=
  E.FromFault e ∨ e = .topicNotFound ∧ deps = ∅

/-- Without known states the folded ops are materialized. -/
theorem WalkInv.materialize (B : Branch E g γ S) (hw : WalkInv E S ps deps [] w)
    (hdeps : ∀ d ∈ deps, ∃ x ∈ S, x.id = d) (hknown : w.known.toList = []) :
    Post (materializeTopicState w.folded ∅) (fun st => deps ≠ ∅ ∧ StateOf (E.below deps) g γ st)
      (ProjectFails E deps) := by
  by_cases hne : deps = ∅
  · -- nothing was walked, so there is no genesis to fold
    have hfolded : w.folded = [] := by
      refine eq_nil_iff_forall_not_mem.2 fun x hx => ?_
      obtain ⟨y, -, -, z, -, hz, -⟩ := hw.seen _ (hw.folded x hx).2
      simp [hne] at hz
    rw [hfolded]
    exact Post.error (Or.inr ⟨rfl, hne⟩)
  · have hroot : g ∈ w.folded := by
      rcases hw.covers B (B.root_mem_below hne hdeps) hdeps with h | ⟨e, he⟩ | ⟨y, -, hy, -⟩
      · exact h
      · rw [B.payload] at he
        cases he
      · rw [hknown] at hy
        cases hy
    have hone : ∀ op ∈ w.folded, ∀ γ', op.body.payload = .genesis γ' → op.id = g.id ∧ γ' = γ := by
      intro op hop γ' hp
      obtain rfl := B.eq_root_of_payload (hw.folded op hop).1 hp
      rw [B.payload] at hp
      cases hp
      exact ⟨rfl, rfl⟩
    obtain ⟨st, hst, hstate, -⟩ := materializeTopicState_stateOf B.payload hroot
      (fun op hop => B.topic op (hw.folded op hop).1) hone ∅
    rw [hst]
    refine Post.ok ⟨hne, hw.stateOf B hdeps ?_⟩
    rw [hknown]
    simpa [Env.belowList] using hstate

/-- Known states are merged and continued with the folded ops. -/
theorem WalkInv.merge (B : Branch E g γ S) (hps : BranchProj E g γ ps) (hw : WalkInv E S ps deps [] w)
    (hdeps : ∀ d ∈ deps, ∃ x ∈ S, x.id = d) (hknown : w.known.toList ≠ []) :
    Post (mergeStates ps w.known.toList none >>= fun st => w.folded.foldlM applyFolded st)
      (fun st => deps ≠ ∅ ∧ StateOf (E.below deps) g γ st) fun _ => False := by
  obtain ⟨k, hk⟩ := exists_mem_of_ne_nil _ hknown
  have hcontains : ∀ id ∈ w.known.toList, ps.contains id = true :=
    fun id hid => (hw.known id (by simpa using hid)).2
  refine (mergeStates_none (hps.known hcontains) hknown).bind fun st hst => ?_
  refine (foldlM_applyFolded B (fun op hop => (hw.folded op hop).1) hst).mono (fun st' hst' => ?_) fun _ h => h
  refine ⟨?_, hw.stateOf B hdeps hst'⟩
  rintro rfl
  obtain ⟨y, -, -, z, -, hz, -⟩ := hw.seen _ (hw.known k (by simpa using hk)).1
  simp at hz

theorem projectAncestry_post (H : Sees E r o g γ S) (hps : BranchProj E g γ ps)
    (hdeps : ∀ d ∈ deps, ∃ x ∈ S, x.id = d) :
    Post (projectAncestry E n r o g.body.topicId deps ps)
      (fun res => deps ≠ ∅ ∧ StateOf (E.below deps) g γ res.1 ∧ BranchProj E g γ res.2)
        (ProjectFails E deps) := by
  have B := H.branch
  have charge : ∀ {used bytes}, Post (workspaceCharge E n deps used bytes) (fun _ => True)
    (ProjectFails E deps) :=
    workspaceCharge_post.mono (fun _ h => h) fun _ h => Or.inl h
  have hstart : ∀ used, WalkInv E S ps deps deps.toList.reverse { used := used } := by
    intro used
    refine ⟨fun id hid => ?_, by simp, by simp, by simp, fun d hd => Or.inr (by simpa using hd), by simp⟩
    have hid' : id ∈ deps := by simpa using hid
    obtain ⟨x, hx, rfl⟩ := hdeps id hid'
    exact ⟨x, hx, rfl, x, B.valid hx, hid', Or.inl rfl⟩
  have hfuel : deps.toList.reverse.length + unseenEdges (·.deps.size) (r.metas.toList ++ o.metas.toList)
      (∅ : BTreeSet OpId).contains < walkFuel r o deps := by
    have : unseenEdges (·.deps.size) (r.metas.toList ++ o.metas.toList) (∅ : BTreeSet OpId).contains =
        (r.metas.toList.map (·.2.deps.size)).sum + (o.metas.toList.map (·.2.deps.size)).sum := by
      simp [unseenEdges]
    rw [walkFuel, this, length_reverse, length_toList]
    omega
  have finish : ∀ {w : Walk} {st : TopicState}, deps ≠ ∅ ∧ StateOf (E.below deps) g γ st →
      Post (pure (st, keepProjection deps w.known st ps) : Result (TopicState × Projections))
        (fun res => deps ≠ ∅ ∧ StateOf (E.below deps) g γ res.1 ∧ BranchProj E g γ res.2) (ProjectFails E deps) :=
    fun ⟨hne, hst⟩ => Post.pure ⟨hne, hst, keepProjection_branchProj B hps hdeps hst⟩
  unfold projectAncestry
  refine charge.bind fun used _ => ?_
  refine ((projectWalk_post H (hstart used) hfuel).mono (fun _ h => h) fun _ h => Or.inl h).bind fun w hw => ?_
  dsimp only
  split
  · rename_i hempty
    refine charge.bind fun _ _ => ?_
    exact (hw.materialize B hdeps (by simpa using hempty)).bind fun st hst => finish hst
  · rename_i hempty
    have hknown : w.known.toList ≠ [] := fun h => hempty (by simpa using h)
    refine charge.bind fun _ _ => ?_
    rw [← bind_assoc]
    exact (hw.merge B hps hdeps hknown).never.bind fun st hst => finish hst

/-- **The projected state is the state of the ancestry.** -/
theorem projectMembership_post (H : Sees E r o g γ S) (hps : BranchProj E g γ ps)
    (hdeps : ∀ d ∈ deps, ∃ x ∈ S, x.id = d) :
    Post (projectMembership E n r o g.body.topicId deps ps)
      (fun res => deps ≠ ∅ ∧ StateOf (E.below deps) g γ res.1 ∧ BranchProj E g γ res.2)
        (ProjectFails E deps) := by
  unfold projectMembership
  split
  · rename_i dep hlist
    have hdep : dep ∈ deps := by
      rw [← mem_toList, hlist]
      simp
    cases hst : ps[dep]? with
    | none => exact projectAncestry_post H hps hdeps
    | some st =>
      obtain ⟨y, hy, rfl, hstate⟩ := hps dep st hst
      refine Post.ok ⟨BTreeSet.ne_empty_of_mem hdep, ?_, hps⟩
      rwa [below_singleton hy hlist]
  · exact projectAncestry_post H hps hdeps

end Irokle
