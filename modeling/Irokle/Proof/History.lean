import Irokle.Lib.Causal
import Irokle.Proof.State

/-!
# Branches

A branch is a set of ops that grows from one genesis: each op's dependencies are in it, its
generation and actor position follow from them, and its author was a member at them. The
ancestry of a valid op does not depend on the branch it is looked up in.

* `Branch.insert` — a fitting op extends a branch;
* `Branch.past_subset`, `Branch.past_eq` — the ancestry of an op lies in its branch;
* `Branch.root_mem_past` — the genesis is below every other op;
* `Branch.covers_of_join` — the join of some ops' clocks covers what lies below them;
* `Branch.below_eq_of_heads` — the whole branch lies below its heads.
-/

namespace Irokle

open Std Causal

/-- Ops as events of a causal history. -/
def opShape : Shape Op OpId ActorId where
  ident := Op.id
  deps op := {d | d ∈ op.body.deps}
  actor op := op.body.actorId
  seq op := op.body.actorSeq

/-- The strict ancestors of an op, among all valid ops. -/
def Env.past (E : Env) (op : Op) : Set Op := opShape.past {x | E.Valid x} op

/-- The ops named by `deps`, with their ancestors. -/
def Env.below (E : Env) (deps : BTreeSet OpId) : Set Op :=
  {x | ∃ y, E.Valid y ∧ y.id ∈ deps ∧ (x = y ∨ x ∈ E.past y)}

/-- What an op at its place in a branch links to. -/
structure Links (E : Env) (S : Set Op) (op : Op) : Prop where
  valid : E.Valid op
  actor : op.body.actorId = E.actorIdFor op.body.topicId op.body.author
  deps : ∀ d ∈ op.body.deps, ∃ x ∈ S, x.id = d ∧ x.body.generation < op.body.generation
  generation : op.body.generation ≠ 0 →
    ∃ x ∈ S, x.id ∈ op.body.deps ∧ op.body.generation = x.body.generation + 1
  first : op.body.actorPrev = none → op.body.actorSeq = 1
  next : ∀ p, op.body.actorPrev = some p → p ∈ op.body.deps ∧
    ∃ x ∈ S, x.id = p ∧ x.body.actorId = op.body.actorId ∧ x.body.actorSeq + 1 = op.body.actorSeq
  bounded : op.body.generation < u64Size ∧ op.body.actorSeq < u64Size

/-- What an op other than the genesis may do, and who may write it. -/
structure Authored (E : Env) (g : Op) (γ : TopicGenesis) (op : Op) : Prop where
  deps : op.body.deps ≠ ∅
  payload : ∀ γ', op.body.payload ≠ .genesis γ'
  eventType : ∀ envelope, op.body.payload = .event envelope → envelope.typeId = γ.eventTypeId
  member : ∃ st, StateOf (E.past op) g γ st ∧ op.body.author ∈ st.members

/-- The ops `S` form the branch of the genesis `g`. -/
structure Branch (E : Env) (g : Op) (γ : TopicGenesis) (S : Set Op) : Prop where
  root : g ∈ S
  payload : g.body.payload = .genesis γ
  structural : isStructuralGenesis g = true
  typeBytes : γ.eventTypeId.utf8ByteSize ≤ maxTypeBytes
  topic : ∀ op ∈ S, op.body.topicId = g.body.topicId
  links : ∀ op ∈ S, Links E S op
  authored : ∀ op ∈ S, op ≠ g → Authored E g γ op
  slots : ∀ x ∈ S, ∀ y ∈ S, x.body.actorId = y.body.actorId → x.body.actorSeq = y.body.actorSeq → x = y

variable {E : Env} {g op x y : Op} {γ : TopicGenesis} {S T : Set Op} {deps : BTreeSet OpId}

theorem isStructuralGenesis_iff : isStructuralGenesis op = true ↔
    (∃ γ, op.body.payload = .genesis γ) ∧ op.body.actorSeq = 1 ∧ op.body.actorPrev = none ∧
      op.body.deps = ∅ := by
  unfold isStructuralGenesis
  cases hp : op.body.payload <;> simp [ExtTreeSet.isEmpty_iff, and_assoc]

theorem injOn_valid : Set.InjOn Op.id {x | E.Valid x} := fun _ hx _ hy h => hx.eq_of_id hy h

theorem Links.mono (hST : S ⊆ T) (h : Links E S op) : Links E T op where
  valid := h.valid
  actor := h.actor
  deps d hd := by
    obtain ⟨x, hx, hid, hlt⟩ := h.deps d hd
    exact ⟨x, hST hx, hid, hlt⟩
  generation h0 := by
    obtain ⟨x, hx, hid, heq⟩ := h.generation h0
    exact ⟨x, hST hx, hid, heq⟩
  first := h.first
  next p hp := by
    obtain ⟨hmem, x, hx, hrest⟩ := h.next p hp
    exact ⟨hmem, x, hST hx, hrest⟩
  bounded := h.bounded

/-- The position of an op starts at one. -/
theorem Links.one_le_seq (h : Links E S op) : 1 ≤ op.body.actorSeq := by
  cases hp : op.body.actorPrev with
  | none => exact (h.first hp).ge
  | some p =>
    obtain ⟨-, x, -, -, -, hseq⟩ := h.next p hp
    omega

/-! ## Ancestry -/

theorem mem_past_iff (hop : E.Valid op) :
    x ∈ E.past op ↔ ∃ y, E.Valid y ∧ y.id ∈ op.body.deps ∧ (x = y ∨ x ∈ E.past y) := by
  refine Shape.anc_iff.trans ⟨?_, ?_⟩
  · rintro ⟨y, ⟨hy, -, hdep⟩, hxy⟩
    exact ⟨y, hy, hdep, hxy⟩
  · rintro ⟨y, hy, hdep, hxy⟩
    exact ⟨y, ⟨hy, hop, hdep⟩, hxy⟩

/-- The ancestry of an op is what lies below its dependencies. -/
theorem past_eq_below (hop : E.Valid op) : E.past op = E.below op.body.deps :=
  Set.ext fun _ => mem_past_iff hop

theorem valid_of_mem_past (h : x ∈ E.past op) : E.Valid x := by
  have hx : x ∈ {x | E.Valid x} := Shape.Anc.mem_left h
  exact hx

theorem past_trans (h : x ∈ E.past y) (h' : y ∈ E.past op) : x ∈ E.past op := Shape.Anc.trans h h'

namespace Branch

variable (B : Branch E g γ S)

include B

theorem valid (hop : op ∈ S) : E.Valid op := (B.links op hop).valid

theorem subset_valid : S ⊆ {x | E.Valid x} := fun _ => B.valid

theorem injOn : Set.InjOn Op.id S := injOn_valid.mono B.subset_valid

theorem closed : opShape.Closed S := by
  intro op hop d hd
  obtain ⟨x, hx, hid, -⟩ := (B.links op hop).deps d hd
  exact ⟨x, hx, hid⟩

/-- A valid op named by an op of the branch is in the branch. -/
theorem mem_of_dep (hop : op ∈ S) (hx : E.Valid x) (hdep : x.id ∈ op.body.deps) : x ∈ S := by
  obtain ⟨x', hx', hid⟩ := B.closed op hop x.id hdep
  rwa [← (B.valid hx').eq_of_id hx hid]

theorem past_eq (hop : op ∈ S) : E.past op = opShape.past S op :=
  Shape.past_eq_of_closed B.closed B.subset_valid injOn_valid hop

theorem past_subset (hop : op ∈ S) : E.past op ⊆ S := by
  rw [B.past_eq hop]
  exact Shape.past_subset

theorem below_subset (hdeps : ∀ d ∈ deps, ∃ x ∈ S, x.id = d) : E.below deps ⊆ S := by
  rintro x ⟨y, hy, hdep, hxy⟩
  obtain ⟨y', hy', hid⟩ := hdeps _ hdep
  obtain rfl := (B.valid hy').eq_of_id hy hid
  rcases hxy with rfl | hxy
  · exact hy'
  · exact B.past_subset hy' hxy

theorem chained : opShape.Chained S := by
  intro op hop
  refine ⟨(B.links op hop).one_le_seq, fun hlt => ?_⟩
  cases hp : op.body.actorPrev with
  | none =>
    have := (B.links op hop).first hp
    change 1 < op.body.actorSeq at hlt
    omega
  | some p =>
    obtain ⟨hmem, x, hx, rfl, hactor, hseq⟩ := (B.links op hop).next p hp
    exact ⟨x, hx, hmem, hactor, hseq⟩

theorem generation_lt (h : opShape.Edge S x y) : x.body.generation < y.body.generation := by
  obtain ⟨x', hx', hid, hlt⟩ := (B.links y h.2.1).deps _ h.2.2
  rwa [← B.injOn hx' h.1 hid]

/-- The genesis has no dependencies and generation zero. -/
theorem root_links : g.body.deps = ∅ ∧ g.body.generation = 0 ∧ g.body.actorSeq = 1 ∧ g.body.actorPrev = none := by
  obtain ⟨-, hseq, hprev, hdeps⟩ := isStructuralGenesis_iff.1 B.structural
  refine ⟨hdeps, ?_, hseq, hprev⟩
  by_contra h0
  obtain ⟨x, -, hmem, -⟩ := (B.links g B.root).generation h0
  simp [hdeps] at hmem

theorem eq_root_of_payload {γ' : TopicGenesis} (hop : op ∈ S) (hpay : op.body.payload = .genesis γ') :
    op = g := by
  by_contra hne
  exact (B.authored op hop hne).payload γ' hpay

/-- Every other op has the genesis below it. -/
theorem root_mem_past (hop : op ∈ S) (hne : op ≠ g) : g ∈ E.past op := by
  induction hn : op.body.generation using Nat.strong_induction_on generalizing op with
  | _ n ih =>
    obtain ⟨d, hd⟩ := BTreeSet.exists_mem_of_ne_empty (B.authored op hop hne).deps
    obtain ⟨x, hx, rfl, hlt⟩ := (B.links op hop).deps d hd
    refine (mem_past_iff (B.valid hop)).2 ⟨x, B.valid hx, hd, ?_⟩
    by_cases hxg : x = g
    · exact Or.inl hxg.symm
    · exact Or.inr (ih _ (hn ▸ hlt) hx hxg rfl)

theorem root_mem_below (hne : deps ≠ ∅) (hdeps : ∀ d ∈ deps, ∃ x ∈ S, x.id = d) : g ∈ E.below deps := by
  obtain ⟨d, hd⟩ := BTreeSet.exists_mem_of_ne_empty hne
  obtain ⟨x, hx, rfl⟩ := hdeps d hd
  refine ⟨x, B.valid hx, hd, ?_⟩
  by_cases hxg : x = g
  · exact Or.inl hxg.symm
  · exact Or.inr (B.root_mem_past hx hxg)

/-- A fitting op at a free position extends the branch. -/
theorem insert (htopic : op.body.topicId = g.body.topicId) (hlinks : Links E S op) (hauth : Authored E g γ op)
    (hslot : ∀ x ∈ S, x.body.actorId = op.body.actorId → x.body.actorSeq ≠ op.body.actorSeq) :
    Branch E g γ (insert op S) where
  root := Set.mem_insert_of_mem op B.root
  payload := B.payload
  structural := B.structural
  typeBytes := B.typeBytes
  topic := by
    rintro x (rfl | hx)
    · exact htopic
    · exact B.topic x hx
  links := by
    rintro x (rfl | hx)
    · exact hlinks.mono (Set.subset_insert x S)
    · exact (B.links x hx).mono (Set.subset_insert op S)
  authored := by
    rintro x (rfl | hx) hne
    · exact hauth
    · exact B.authored x hx hne
  slots := by
    rintro x (rfl | hx) y (rfl | hy) hactor hseq
    · rfl
    · exact absurd hseq.symm (hslot y hy hactor.symm)
    · exact absurd hseq (hslot x hx hactor)
    · exact B.slots x hx y hy hactor hseq

/-- The clock joined from the clocks of some ops covers exactly what lies below them. -/
theorem covers_of_join (hdeps : ∀ d ∈ deps, ∃ x ∈ S, x.id = d) {clock : ActorId → ℕ} {obs : Op → ActorId → ℕ}
    (hobs : ∀ x ∈ S, x.id ∈ deps → opShape.Exact {x | E.Valid x} x (obs x))
    (hjoin : ∀ a s, 1 ≤ s → (s ≤ clock a ↔
      ∃ x ∈ S, x.id ∈ deps ∧ (s ≤ obs x a ∨ x.body.actorId = a ∧ s ≤ x.body.actorSeq)))
    {a : ActorId} {s : ℕ} (hs : 1 ≤ s) :
    s ≤ clock a ↔ ∃ x ∈ E.below deps, x.body.actorId = a ∧ x.body.actorSeq = s := by
  have hanc : ∀ {x y}, y ∈ S → (x ∈ E.past y ↔ opShape.Anc S x y) := fun hy =>
    Shape.anc_iff_of_closed B.closed B.subset_valid injOn_valid hy
  have hexact : ∀ x ∈ {x | x ∈ S ∧ x.id ∈ deps}, opShape.Exact S x (obs x) := by
    rintro x ⟨hx, hdep⟩ a s hs
    rw [hobs x hx hdep a s hs]
    exact exists_congr fun w => and_congr_left fun _ => hanc hx
  have hjoin' : ∀ a s, 1 ≤ s → (s ≤ clock a ↔
      ∃ x ∈ {x | x ∈ S ∧ x.id ∈ deps}, s ≤ obs x a ∨ opShape.actor x = a ∧ s ≤ opShape.seq x) := by
    intro a s hs
    rw [hjoin a s hs]
    exact exists_congr fun x => and_assoc.symm
  rw [Shape.covers_of_join B.chained (fun x hx => hx.1) hexact hjoin' hs]
  refine exists_congr fun x => and_congr_left fun _ => ⟨?_, ?_⟩
  · rintro ⟨y, ⟨hy, hdep⟩, hxy⟩
    exact ⟨y, B.valid hy, hdep, hxy.imp_right (hanc hy).2⟩
  · rintro ⟨y, hy, hdep, hxy⟩
    obtain ⟨y', hy', hid⟩ := hdeps _ hdep
    obtain rfl := (B.valid hy').eq_of_id hy hid
    exact ⟨y', ⟨hy', hdep⟩, hxy.imp_right (hanc hy').1⟩

/-- A finite branch lies below its heads. -/
theorem below_eq_of_heads (hfin : S.Finite) (hheads : ∀ d, d ∈ deps ↔ ∃ x ∈ opShape.heads S, x.id = d) :
    E.below deps = S := by
  refine Set.Subset.antisymm (B.below_subset ?_) fun x hx => ?_
  · intro d hd
    obtain ⟨x, hx, hid⟩ := (hheads d).1 hd
    exact ⟨x, hx.1, hid⟩
  · obtain ⟨bound, hbound⟩ := (hfin.image fun op => op.body.generation).bddAbove
    obtain ⟨h, hh, hxh⟩ := Shape.below_head (X := opShape) (fun op => op.body.generation) bound
      (fun u v => B.generation_lt) (fun u hu => hbound ⟨u, hu, rfl⟩) hx
    refine ⟨h, B.valid hh.1, (hheads _).2 ⟨h, hh, rfl⟩, ?_⟩
    rcases hxh with rfl | hxh
    · exact Or.inl rfl
    · exact Or.inr (hxh.mono B.subset_valid)

end Branch

/-- What makes an op the genesis of a branch of its own. -/
structure Founds (E : Env) (g : Op) (γ : TopicGenesis) : Prop where
  valid : E.Valid g
  actor : g.body.actorId = E.actorIdFor g.body.topicId g.body.author
  payload : g.body.payload = .genesis γ
  structural : isStructuralGenesis g = true
  typeBytes : γ.eventTypeId.utf8ByteSize ≤ maxTypeBytes
  generation : g.body.generation = 0

/-- A founding genesis alone is a branch. -/
theorem Founds.branch (h : Founds E g γ) : Branch E g γ {g} := by
  obtain ⟨-, hseq, hprev, hdeps⟩ := isStructuralGenesis_iff.1 h.structural
  refine ⟨rfl, h.payload, h.structural, h.typeBytes, ?_, ?_, ?_, ?_⟩
  · rintro op rfl
    rfl
  · rintro op rfl
    refine ⟨h.valid, h.actor, ?_, ?_, fun _ => hseq, ?_, ?_⟩
    · simp [hdeps]
    · simp [h.generation]
    · simp [hprev]
    · simp [h.generation, hseq, u64Size]
  · rintro op rfl hne
    exact absurd rfl hne
  · rintro x rfl y rfl - -
    rfl

theorem Branch.founds (B : Branch E g γ S) : Founds E g γ where
  valid := B.valid B.root
  actor := (B.links g B.root).actor
  payload := B.payload
  structural := B.structural
  typeBytes := B.typeBytes
  generation := B.root_links.2.1

/-- A branch on a subset has the same genesis. -/
theorem Branch.root_unique {g' : Op} {γ' : TopicGenesis} (B : Branch E g γ S) (B' : Branch E g' γ' T)
    (hST : S ⊆ T) :
    g = g' ∧ γ = γ' := by
  obtain rfl := B'.eq_root_of_payload (hST B.root) B.payload
  have h := B.payload
  rw [B'.payload] at h
  cases h
  exact ⟨rfl, rfl⟩

end Irokle
