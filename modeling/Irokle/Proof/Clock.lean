import Irokle.Proof.TrieMerge

/-!
# An actor clock is a sorted map

* `ActorClock.Pointwise` — the operations on the maps, entry by entry;
* `ClockTrie.Refines` — a trie in shape with the entries of a map, kept by every operation;
* `clockTrie_refines` — along every program on several clocks, clones included, the tries answer
  every question as the maps do.

A clock may hold an entry at position zero: `observe` with zero puts one there. Nothing else does.
-/

namespace Irokle

open Std ExtTreeMap

variable {P : PtrEq} {c c' : ClockTrie} {m m' : ActorClock} {a b : ActorId} {s t : ℕ}

/-! ## The map operations, entry by entry -/

namespace ActorClock

theorem getElem?_advance (v : ActorClock) (a b : ActorId) :
    (v.advance a)[b]? = if a = b then some (min (get v a + 1) (u64Size - 1)) else v[b]? := by
  simp [advance, getElem?_insert]

theorem getElem?_set (v : ActorClock) (a b : ActorId) (n : ℕ) :
    (v.set a n)[b]? = if a = b then (if n = 0 then none else some n) else v[b]? := by
  unfold set
  by_cases hn : n = 0
  · by_cases h : a = b <;> simp [hn, h, getElem?_erase]
  · by_cases h : a = b <;> simp [hn, h, getElem?_insert]

theorem getElem?_selected (v : ActorClock) (actors : BTreeSet ActorId) (a : ActorId) :
    (v.selected actors)[a]? = if a ∈ actors then v[a]? else none := by
  rw [selected, getElem?_filter_key]
  by_cases h : a ∈ actors <;> simp [h]

theorem getElem?_merge (v w : ActorClock) (a : ActorId) : (v.merge w)[a]? = Option.merge max v[a]? w[a]? := by
  have hstep : ∀ (v : ActorClock) (e : ActorId × ℕ) (b : ActorId),
      (ActorClock.observe v e.1 e.2)[b]? = if e.1 = b then some (max (v[b]?.getD 0) e.2) else v[b]? := by
    intro v e b
    rw [getElem?_observe]
    by_cases h : e.1 = b
    · simp [h, get]
    · simp [h]
  rw [merge, getElem?_foldl_toList (fun e old => some (max (old.getD 0) e.2)) hstep]
  cases v[a]? <;> cases w[a]? <;> simp [Option.merge]

/-- One entry in the fold of `intersect`. -/
def meetEntry (large clock : ActorClock) (e : ActorId × ℕ) : ActorClock :=
  match large[e.1]? with
  | some held => clock.insert e.1 (min e.2 held)
  | none => clock

/-- One entry in the fold of `selected`. -/
def keepEntry (m clock : ActorClock) (actor : ActorId) : ActorClock :=
  match m[actor]? with
  | some seq => clock.insert actor seq
  | none => clock

theorem getElem?_intersect (v w : ActorClock) (a : ActorId) :
    (v.intersect w)[a]? = v[a]?.bind fun s => w[a]?.map (min s) := by
  have key : ∀ small large : ActorClock, (small.toList.foldl large.meetEntry ∅)[a]? =
      small[a]?.bind fun s => large[a]?.map (min s) := by
    intro small large
    have hstep : ∀ (clock : ActorClock) (e : ActorId × ℕ) (b : ActorId), (large.meetEntry clock e)[b]? =
        if e.1 = b then (large[e.1]?.map (min e.2)).or clock[b]? else clock[b]? := by
      intro clock e b
      unfold meetEntry
      by_cases h : e.1 = b
      · cases large[e.1]? <;> simp [h]
      · cases large[e.1]? <;> simp [h, getElem?_insert]
    rw [getElem?_foldl_toList (fun e old => (large[e.1]?.map (min e.2)).or old) hstep]
    cases small[a]? <;> simp
  unfold intersect
  by_cases hsize : v.size ≤ w.size
  · rw [if_pos hsize]
    exact key v w
  · rw [if_neg hsize]
    refine (key w v).trans ?_
    cases v[a]? <;> cases w[a]? <;> simp [min_comm]

/-- Every operation on the maps acts entry by entry: a merge is the pointwise maximum, an
intersection the pointwise minimum, a selection a restriction. -/
structure Pointwise : Prop where
  advance : ∀ (v : ActorClock) (a b : ActorId),
    (v.advance a)[b]? = if a = b then some (min (get v a + 1) (u64Size - 1)) else v[b]?
  observe : ∀ (v : ActorClock) (a : ActorId) (n : ℕ) (b : ActorId),
    (ActorClock.observe v a n)[b]? = if a = b then some (max (get v a) n) else v[b]?
  set : ∀ (v : ActorClock) (a b : ActorId) (n : ℕ),
    (v.set a n)[b]? = if a = b then (if n = 0 then none else some n) else v[b]?
  merge : ∀ (v w : ActorClock) (a : ActorId), (v.merge w)[a]? = Option.merge max v[a]? w[a]?
  intersect : ∀ (v w : ActorClock) (a : ActorId), (v.intersect w)[a]? = v[a]?.bind fun s => w[a]?.map (min s)
  selected : ∀ (v : ActorClock) (actors : BTreeSet ActorId) (a : ActorId),
    (v.selected actors)[a]? = if a ∈ actors then v[a]? else none
  dominates : ∀ v w : ActorClock, v.dominates w = true ↔ ∀ a, get w a ≤ get v a

theorem pointwise : Pointwise where
  advance := getElem?_advance
  observe _ _ _ _ := getElem?_observe
  set := getElem?_set
  merge := getElem?_merge
  intersect := getElem?_intersect
  selected := getElem?_selected
  dominates _ _ := dominates_iff

end ActorClock

/-! ## One clock and its map -/

namespace ClockTrie

open ClockNode

/-- The trie of a clock has its shape. -/
def Shaped (c : ClockTrie) : Prop := ∀ n ∈ c.root, Shape n

/-- A trie in shape with the entries of a map. -/
structure Refines (c : ClockTrie) (m : ActorClock) : Prop where
  shaped : c.Shaped
  entry : ∀ a, c.entry a = m[a]?

theorem iter_eq : c.iter = optEntries c.root := iterFrom_eq _

theorem Shaped.mem_iter (S : c.Shaped) : (a, s) ∈ c.iter ↔ c.entry a = some s := by
  rw [iter_eq, entry]
  cases h : c.root with
  | none => simp
  | some n => simpa using (S n h).lookup_iff.symm

/-- **The entries of a clock are in strict actor order.** -/
theorem Shaped.ascending (S : c.Shaped) : c.iter.Pairwise fun e e' => e.1 < e'.1 := by
  rw [iter_eq]
  cases h : c.root with
  | none => simp
  | some n => simpa using (S n h).ascending

/-- The map with the entries of a clock. -/
def contents (c : ClockTrie) : ActorClock := c.iter.foldl (fun m e => m.insert e.1 e.2) ∅

theorem Shaped.refines (S : c.Shaped) : Refines c c.contents := by
  have hnodup : (c.iter.map Prod.fst).Nodup := by
    rw [List.Nodup, List.pairwise_map]
    exact S.ascending.imp fun h => h.ne
  have hstep : ∀ (v : ActorClock) (e : ActorId × ℕ) (b : ActorId),
      (v.insert e.1 e.2)[b]? = if e.1 = b then some e.2 else v[b]? := by
    intro v e b
    simp [getElem?_insert]
  obtain ⟨hin, hout⟩ := getElem?_foldl_update (fun e _ => some e.2) hstep hnodup ∅
  refine ⟨S, fun a => ?_⟩
  cases h : c.entry a with
  | some s => exact (hin (a, s) (S.mem_iter.2 h)).symm
  | none =>
    have habsent : ∀ e ∈ c.iter, e.1 ≠ a := by
      rintro ⟨b, s⟩ he rfl
      rw [S.mem_iter.1 he] at h
      cases h
    rw [contents, hout a habsent]
    simp

/-- A loop that updates a trie and a map in step. -/
theorem Refines.foldl {ε : Type} {f : ClockTrie → ε → ClockTrie} {g : ActorClock → ε → ActorClock}
    (hstep : ∀ c m e, Refines c m → Refines (f c e) (g m e)) (l : List ε) (R : Refines c m) :
    Refines (l.foldl f c) (l.foldl g m) := by
  induction l generalizing c m with
  | nil => exact R
  | cons e l ih => exact ih (hstep c m e R)

theorem refines_new : Refines new ∅ := ⟨by simp [Shaped, new], fun a => by simp [entry, new]⟩

/-- One entry in the fold of `intersect`. -/
def meetEntry (large clock : ClockTrie) (e : ActorId × ℕ) : ClockTrie :=
  match large.entry e.1 with
  | some held => clock.put e.1 (some (min e.2 held))
  | none => clock

/-- One entry in the fold of `selected`. -/
def keepEntry (c clock : ClockTrie) (actor : ActorId) : ClockTrie :=
  match c.entry actor with
  | some seq => clock.put actor (some seq)
  | none => clock

namespace Refines

variable (R : Refines c m) (R' : Refines c' m')

include R

theorem get_eq (a : ActorId) : c.get a = m.get a := by rw [ClockTrie.get, R.entry, ActorClock.get]

/-- **Iteration lists the map in order.** -/
theorem iter_eq : c.iter = m.toList := by
  have hm : m.toList.Pairwise fun e e' => e.1 < e'.1 := m.ordered_keys_toList.imp fun h => compare_lt_iff_lt.1 h
  have hnodup : ∀ {l : List (ActorId × ℕ)}, l.Pairwise (fun e e' => e.1 < e'.1) → l.Nodup := by
    intro l hl
    refine hl.imp ?_
    rintro e e' h rfl
    exact lt_irrefl _ h
  have hperm : c.iter.Perm m.toList := by
    refine (List.perm_ext_iff_of_nodup (hnodup R.shaped.ascending) (hnodup hm)).2 ?_
    rintro ⟨a, s⟩
    rw [R.shaped.mem_iter, R.entry, mem_toList_iff_getElem?_eq_some]
  refine hperm.eq_of_pairwise ?_ R.shaped.ascending hm
  intro e e' _ _ h h'
  exact absurd (h.trans h') (lt_irrefl _)

theorem len_eq : c.len = m.size := by
  rw [← length_toList, ← R.iter_eq, ClockTrie.iter_eq, len]
  cases h : c.root with
  | none => rfl
  | some n => simpa using (R.shaped n h).len_eq

theorem serialize_eq : c.serialize = (m.size, m.toList) := by rw [serialize, R.len_eq, R.iter_eq]

/-- A map that reads as `m` except at one actor. -/
theorem put (seq : Option ℕ) (hm : ∀ b : ActorId, m'[b]? = if a = b then seq else m[b]?) :
    Refines (c.put a seq) m' := by
  unfold ClockTrie.put
  split
  · rename_i heq
    refine ⟨R.shaped, fun b => ?_⟩
    rw [hm b, R.entry]
    split
    · rename_i hab
      rw [← hab, ← heq, R.entry]
    · rfl
  · cases hroot : c.root with
    | none =>
      have hempty : ∀ b : ActorId, m[b]? = none := fun b => by rw [← R.entry, ClockTrie.entry, hroot]; rfl
      cases seq with
      | none =>
        refine ⟨by simp [Shaped], fun b => ?_⟩
        rw [hm b, hempty b]
        simp [ClockTrie.entry]
      | some s =>
        refine ⟨by simp [Shaped, newLeaf, Shape.leaf], fun b => ?_⟩
        rw [hm b, hempty b]
        simp [ClockTrie.entry, newLeaf, lookup]
    | some n =>
      have I : Sets n a seq (setNode a seq n) := setNode_spec (R.shaped n hroot)
      have S : Shaped ⟨setNode a seq n⟩ := I.shape
      refine ⟨S, fun b => Option.ext fun s => ?_⟩
      have hold : m[b]? = lookup b n := by rw [← R.entry, ClockTrie.entry, hroot]; rfl
      rw [hm b, ← S.mem_iter, ClockTrie.iter_eq, I.entries]
      by_cases hab : a = b
      · simp [hab]
      · rw [if_neg hab, hold, (R.shaped n hroot).lookup_iff]
        simp [Ne.symm hab]

theorem insert (a : ActorId) (s : ℕ) : Refines (c.put a (some s)) (m.insert a s) :=
  R.put (some s) fun b => by simp [getElem?_insert]

theorem advance (a : ActorId) :
    (c.advance a).1 = (m.advance a).get a ∧ Refines (c.advance a).2 (m.advance a) := by
  have hnext : min (c.get a + 1) (u64Size - 1) = min (m.get a + 1) (u64Size - 1) := by rw [R.get_eq]
  refine ⟨?_, ?_⟩
  · rw [ActorClock.get_of_getElem? (v := m.advance a) (n := min (m.get a + 1) (u64Size - 1))
      (by rw [ActorClock.getElem?_advance, if_pos rfl])]
    exact hnext
  · unfold ClockTrie.advance ActorClock.advance
    dsimp only
    rw [hnext]
    exact R.insert a _

theorem observe (a : ActorId) (s : ℕ) : Refines (c.observe a s) (ActorClock.observe m a s) := by
  unfold ClockTrie.observe ActorClock.observe
  rw [R.entry]
  exact R.insert a _

theorem set (a : ActorId) (s : ℕ) : Refines (c.set a s) (m.set a s) := by
  refine R.put _ fun b => ?_
  rw [ActorClock.getElem?_set]
  simp only [ne_eq, ite_not]

theorem selected (P : PtrEq) (actors : BTreeSet ActorId) : Refines (c.selected P actors) (m.selected actors) := by
  unfold ClockTrie.selected
  split
  · cases hroot : c.root with
    | none =>
      refine ⟨by simp [Shaped], fun a => ?_⟩
      have hnone : m[a]? = none := by rw [← R.entry, ClockTrie.entry, hroot]; rfl
      rw [ActorClock.getElem?_selected, hnone]
      simp [ClockTrie.entry]
    | some n =>
      have I : Selects actors n (selectedNode P [] actors n) := selectedNode_spec P actors (R.shaped n hroot) []
      have S : Shaped ⟨selectedNode P [] actors n⟩ := I.shape
      refine ⟨S, fun a => Option.ext fun s => ?_⟩
      have hold : m[a]? = lookup a n := by rw [← R.entry, ClockTrie.entry, hroot]; rfl
      have hkept := I.entries (a, s)
      rw [Option.bind_some, ← S.mem_iter, ClockTrie.iter_eq, hkept, ActorClock.getElem?_selected, hold]
      by_cases ha : a ∈ actors
      · simp [ha, (R.shaped n hroot).lookup_iff]
      · simp [ha]
  · -- few actors: their entries are put into a new clock
    have hput : ∀ (c₀ : ClockTrie) (m₀ : ActorClock) (actor : ActorId), Refines c₀ m₀ →
        Refines (c.keepEntry c₀ actor) (m.keepEntry m₀ actor) := by
      intro c₀ m₀ actor h
      unfold ClockTrie.keepEntry ActorClock.keepEntry
      rw [R.entry]
      cases m[actor]? with
      | none => exact h
      | some s => exact h.insert actor s
    have hstep : ∀ (clock : ActorClock) (actor b : ActorId), (m.keepEntry clock actor)[b]? = if actor = b then
        m[actor]?.or clock[b]? else clock[b]? := by
      intro clock actor b
      unfold ActorClock.keepEntry
      by_cases h : actor = b
      · cases m[actor]? <;> simp [h]
      · cases m[actor]? <;> simp [h, getElem?_insert]
    have hnodup : (actors.toList.map id).Nodup := by rw [List.map_id]; exact BTreeSet.nodup_toList actors
    obtain ⟨hin, hout⟩ := getElem?_foldl_update (fun actor old => m[actor]?.or old) hstep hnodup ∅
    have hmap : actors.toList.foldl m.keepEntry ∅ = m.selected actors := by
      refine ext_getElem? fun (a : ActorId) => ?_
      rw [ActorClock.getElem?_selected]
      by_cases ha : a ∈ actors
      · rw [hin a (ExtTreeSet.mem_toList.2 ha), if_pos ha]
        simp
      · rw [hout a (fun e he => fun h => ha (ExtTreeSet.mem_toList.1 (h ▸ he))), if_neg ha]
        simp
    rw [← hmap]
    exact Refines.foldl hput _ refines_new

include R'

theorem merge (P : PtrEq) : Refines (c.merge P c') (m.merge m') := by
  have hentry : ∀ a : ActorId, (m.merge m')[a]? = Option.merge max (c.entry a) (c'.entry a) := by
    intro a
    rw [ActorClock.getElem?_merge, R.entry, R'.entry]
  unfold ClockTrie.merge
  cases hc : c.root with
  | none =>
    refine ⟨?_, fun a => ?_⟩
    · simpa [Shaped] using R'.shaped
    · have hnone : c.entry a = none := by rw [ClockTrie.entry, hc]; rfl
      rw [hentry, hnone]
      cases h : c'.entry a <;> simpa [ClockTrie.entry, Option.merge] using h
  | some n =>
    cases hc' : c'.root with
    | none =>
      refine ⟨?_, fun a => ?_⟩
      · have := R.shaped
        simpa [Shaped, hc] using this
      · have hnone : c'.entry a = none := by rw [ClockTrie.entry, hc']; rfl
        have h : c.entry a = lookup a n := by rw [ClockTrie.entry, hc]; rfl
        rw [hentry, hnone, h]
        cases hn : lookup a n <;> simp [ClockTrie.entry, Option.merge, hn]
    | some n' =>
      have S := R.shaped n hc
      have S' := R'.shaped n' hc'
      have M := union_spec P S S' []
      have hS : Shaped ⟨some (union P [] n n')⟩ := by
        simpa [Shaped] using M.shape
      refine ⟨hS, fun a => Option.ext fun s => ?_⟩
      have hn : c.entry a = lookup a n := by rw [ClockTrie.entry, hc]; rfl
      have hn' : c'.entry a = lookup a n' := by rw [ClockTrie.entry, hc']; rfl
      have hhigher := M.entries a s
      rw [← hS.mem_iter, ClockTrie.iter_eq, optEntries_some, hentry, hn, hn']
      refine hhigher.trans ?_
      simp only [Higher, Has, ← S.lookup_iff, ← S'.lookup_iff]
      cases lookup a n <;> cases lookup a n' <;> simp [Option.merge]
      omega

theorem intersect : Refines (c.intersect c') (m.intersect m') := by
  have hput : ∀ (large : ClockTrie) (w : ActorClock), Refines large w →
    ∀ (c₀ : ClockTrie) (m₀ : ActorClock) (e : ActorId × ℕ),
      Refines c₀ m₀ → Refines (large.meetEntry c₀ e) (w.meetEntry m₀ e) := by
    intro large w hw c₀ m₀ e h
    unfold ClockTrie.meetEntry ActorClock.meetEntry
    rw [hw.entry]
    cases w[e.1]? with
    | none => exact h
    | some held => exact h.insert e.1 _
  unfold ClockTrie.intersect ActorClock.intersect
  rw [R.len_eq, R'.len_eq]
  by_cases hsize : m.size ≤ m'.size
  · rw [if_pos hsize, if_pos hsize]
    dsimp only
    rw [R.iter_eq]
    exact Refines.foldl (hput c' m' R') _ refines_new
  · rw [if_neg hsize, if_neg hsize]
    dsimp only
    rw [R'.iter_eq]
    exact Refines.foldl (hput c m R) _ refines_new

/-- Clocks with the same entries are the same map. -/
theorem eq_of_entry (h : ∀ a, c.entry a = c'.entry a) : m = m' := by
  refine ext_getElem? fun (a : ActorId) => ?_
  rw [← R.entry, ← R'.entry, h a]

theorem eq_of_sharesRoot (h : sharesRoot P c c' = true) : m = m' := by
  refine R.eq_of_entry R' fun a => ?_
  unfold sharesRoot at h
  split at h
  · rename_i own theirs hc hc'
    rw [ClockTrie.entry, ClockTrie.entry, hc, hc', P.sound _ _ _ h]
  · cases h

theorem dominates_eq (P : PtrEq) : c.dominates P c' = m.dominates m' := by
  have hiter : (c'.iter.all fun e => decide (e.2 ≤ c.get e.1)) = m.dominates m' := by
    rw [R'.iter_eq, ActorClock.dominates]
    simp only [R.get_eq]
  rw [ClockTrie.dominates, hiter, Bool.or_eq_right_iff_imp]
  intro h
  rw [R.eq_of_sharesRoot R' h]
  exact ActorClock.dominates_iff.2 fun _ => le_rfl

theorem eq_iff (P : PtrEq) : c.eq P c' = true ↔ m = m' := by
  rw [ClockTrie.eq, R.len_eq, R'.len_eq, R.iter_eq, R'.iter_eq]
  constructor
  · intro h
    rcases Bool.or_eq_true_iff.1 h with h | h
    · exact R.eq_of_sharesRoot R' h
    · have hlist : m.toList = m'.toList := by simpa using (Bool.and_eq_true_iff.1 h).2
      refine ext_getElem? fun (a : ActorId) => Option.ext fun s => ?_
      rw [← mem_toList_iff_getElem?_eq_some, ← mem_toList_iff_getElem?_eq_some, hlist]
  · rintro rfl
    simp

end Refines

/-- **A clock read from the wire is the map that was sent.** -/
theorem refines_deserialize (m : ActorClock) : Refines (deserialize m) m := by
  have hstep : ∀ (v : ActorClock) (e : ActorId × ℕ) (b : ActorId),
      (v.insert e.1 e.2)[b]? = if e.1 = b then some e.2 else v[b]? := by
    intro v e b
    simp [getElem?_insert]
  have hmap : m.toList.foldl (fun (m : ActorClock) e => m.insert e.1 e.2) ∅ = m := by
    refine ext_getElem? fun (a : ActorId) => ?_
    rw [getElem?_foldl_toList (fun e _ => some e.2) hstep]
    cases m[a]? <;> simp
  have h : Refines (deserialize m) (m.toList.foldl (fun (m : ActorClock) e => m.insert e.1 e.2) ∅) :=
    Refines.foldl (fun _ _ e R => R.insert e.1 e.2) _ refines_new
  rwa [hmap] at h

end ClockTrie

/-! ## Programs on several clocks -/

namespace ClockOp

/-- The clock an operation writes. -/
def dst : ClockOp → ℕ
  | new d | clone d _ | advance d _ | observe d _ _ | set d _ _ | merge d _ | intersect d _ _ | selected d _ _
  | deserialize d _ => d

/-- The operation observes, or reads from the wire, a position zero. -/
def BringsZero : ClockOp → Prop
  | observe _ _ seq => seq = 0
  | deserialize _ entries => ∃ a : ActorId, entries[a]? = some 0
  | _ => False

variable {c : ℕ → ClockTrie} {m : ℕ → ActorClock} {i : ℕ}

open ClockTrie

/-- A program on tries; every call has its own answers of `Arc::ptr_eq`. -/
def runTries (c : ℕ → ClockTrie) (program : List (PtrEq × ClockOp)) : ℕ → ClockTrie :=
  program.foldl (fun c e => e.2.onTries e.1 c) c

/-- The same program on sorted maps. -/
def runMaps (m : ℕ → ActorClock) (program : List (PtrEq × ClockOp)) : ℕ → ActorClock :=
  program.foldl (fun m e => e.2.onMaps m) m

theorem runTries_append (program rest : List (PtrEq × ClockOp)) :
    runTries c (program ++ rest) = runTries (runTries c program) rest := List.foldl_append

theorem refines_update {d : ℕ} {x : ClockTrie} {v : ActorClock} (R : ∀ i, Refines (c i) (m i))
    (h : Refines x v) (i : ℕ) :
    Refines (Function.update c d x i) (Function.update m d v i) := by
  by_cases hi : i = d
  · subst hi
    simpa using h
  · simpa [hi] using R i

/-- One operation keeps every clock in step with its map. -/
theorem refines_step (P : PtrEq) (op : ClockOp) (R : ∀ i, Refines (c i) (m i)) (i : ℕ) :
    Refines (op.onTries P c i) (op.onMaps m i) := by
  cases op with
  | new d => exact refines_update R refines_new i
  | clone d src => exact refines_update R (R src) i
  | advance d a => exact refines_update R ((R d).advance a).2 i
  | observe d a s => exact refines_update R ((R d).observe a s) i
  | set d a s => exact refines_update R ((R d).set a s) i
  | merge d src => exact refines_update R ((R d).merge (R src) P) i
  | intersect d own other => exact refines_update R ((R own).intersect (R other)) i
  | selected d src actors => exact refines_update R ((R src).selected P actors) i
  | deserialize d entries => exact refines_update R (refines_deserialize entries) i

theorem refines_run (program : List (PtrEq × ClockOp)) (R : ∀ i, Refines (c i) (m i)) (i : ℕ) :
    Refines (runTries c program i) (runMaps m program i) := by
  induction program generalizing c m with
  | nil => exact R i
  | cons e program ih => exact ih (refines_step e.1 e.2 R)

/-- An operation leaves every clock but its own as it is. -/
theorem onTries_frame (P : PtrEq) {op : ClockOp} (h : op.dst ≠ i) : op.onTries P c i = c i := by
  cases op <;> exact Function.update_of_ne (Ne.symm h) _ _

theorem runTries_frame {program : List (PtrEq × ClockOp)} (h : ∀ e ∈ program, e.2.dst ≠ i) :
    runTries c program i = c i := by
  induction program generalizing c with
  | nil => rfl
  | cons e program ih =>
    refine (ih fun e' he' => h e' (List.mem_cons_of_mem _ he')).trans ?_
    exact onTries_frame e.1 (h e (by simp))

theorem positive_update {d : ℕ} {v : ActorClock} (hm : ∀ i, (m i).Positive) (hv : v.Positive) (i : ℕ) :
    (Function.update m d v i).Positive := by
  by_cases hi : i = d
  · subst hi
    simpa using hv
  · simpa [hi] using hm i

/-- Zero positions come only from outside. -/
theorem positive_step {op : ClockOp} (hop : ¬op.BringsZero) (hm : ∀ i, (m i).Positive) (i : ℕ) :
    (op.onMaps m i).Positive := by
  cases op with
  | new d => exact positive_update hm ActorClock.Positive.empty i
  | clone d src => exact positive_update hm (hm src) i
  | advance d a =>
    refine positive_update hm (fun b => ?_) i
    rw [ActorClock.getElem?_advance]
    split
    · simp [u64Size]
    · exact hm d b
  | observe d a s => exact positive_update hm ((hm d).observe (Nat.pos_of_ne_zero hop)) i
  | set d a s =>
    refine positive_update hm (fun b => ?_) i
    rw [ActorClock.getElem?_set]
    split
    · split
      · simp
      · simpa
    · exact hm d b
  | merge d src => exact positive_update hm ((hm d).merge (hm src)) i
  | intersect d own other =>
    refine positive_update hm (fun b => ?_) i
    rw [ActorClock.getElem?_intersect]
    have h1 := hm own b
    have h2 := hm other b
    cases h : (m own)[b]? with
    | none => simp
    | some s =>
      cases h' : (m other)[b]? with
      | none => simp
      | some t =>
        rw [h, ne_eq, Option.some.injEq] at h1
        rw [h', ne_eq, Option.some.injEq] at h2
        simp only [Option.bind_some, Option.map_some, ne_eq, Option.some.injEq]
        omega
  | selected d src actors =>
    refine positive_update hm (fun b => ?_) i
    rw [ActorClock.getElem?_selected]
    split
    · exact hm src b
    · simp
  | deserialize d entries => exact positive_update hm (fun b hb => hop ⟨b, hb⟩) i

theorem positive_run {program : List (PtrEq × ClockOp)} (hp : ∀ e ∈ program, ¬e.2.BringsZero)
    (hm : ∀ i, (m i).Positive) (i : ℕ) :
    (runMaps m program i).Positive := by
  induction program generalizing m with
  | nil => exact hm i
  | cons e program ih =>
    exact ih (fun e' he' => hp e' (List.mem_cons_of_mem _ he')) (positive_step (hp e (by simp)) hm)

end ClockOp

open ClockOp

/-- **A clock trie is the sorted map of its entries**, along every program that starts from any
clocks in shape. The maps run the same operations, which act entry by entry (`Pointwise`). A clone
that is not written again stays as it was taken. Iteration shows a zero position only when one was
observed or read before. -/
theorem clockTrie_refines (start : ℕ → { c : ClockTrie // c.Shaped }) (program : List (PtrEq × ClockOp)) :
    let c := runTries (fun i => (start i).1) program
    let m := runMaps (fun i => (start i).1.contents) program
    ActorClock.Pointwise ∧ ∀ i,
      (c i).Shaped ∧ (∀ a, (c i).get a = (m i).get a) ∧ (c i).len = (m i).size ∧ (c i).iter = (m i).toList ∧
      (c i).iter.Pairwise (fun e e' => e.1 < e'.1) ∧ (c i).serialize = ((m i).size, (m i).toList) ∧
      (∀ a, ((c i).advance a).1 = ((m i).advance a).get a) ∧
      (∀ (P : PtrEq) (j : ℕ), (c i).dominates P (c j) = (m i).dominates (m j) ∧
        ((c i).eq P (c j) = true ↔ m i = m j)) ∧
      (∀ rest : List (PtrEq × ClockOp), (∀ e ∈ rest, e.2.dst ≠ i) →
        runTries (fun i => (start i).1) (program ++ rest) i = c i) ∧
      ((∀ j, (start j).1.contents.Positive) → (∀ e ∈ program, ¬e.2.BringsZero) → ∀ e ∈ (c i).iter, e.2 ≠ 0) := by
  intro c m
  refine ⟨ActorClock.pointwise, fun i => ?_⟩
  have R : ∀ i, ClockTrie.Refines (c i) (m i) := refines_run program fun i => (start i).2.refines
  refine ⟨(R i).shaped, (R i).get_eq, (R i).len_eq, (R i).iter_eq, (R i).shaped.ascending, (R i).serialize_eq,
    fun a => ((R i).advance a).1, fun P j => ⟨(R i).dominates_eq (R j) P, (R i).eq_iff (R j) P⟩,
    fun rest hrest => ?_, fun hstart hprogram e he => ?_⟩
  · rw [runTries_append]
    exact runTries_frame hrest
  · have hpos := positive_run hprogram hstart i
    rw [(R i).iter_eq] at he
    intro hzero
    refine hpos e.1 ?_
    rw [← hzero]
    exact mem_toList_iff_getElem?_eq_some.1 he

/-- **A clock that observes position zero iterates over it.** -/
theorem clockTrie_zeroEntry : ∃ e ∈ (ClockOp.runTries (fun _ => ClockTrie.new)
    [(⟨fun _ _ _ => false, by simp⟩, ClockOp.observe 0 (IdType.ofNat 1) 0)] 0).iter, e.2 = 0 := by
  refine ⟨(IdType.ofNat 1, 0), ?_, rfl⟩
  simp [ClockOp.runTries, ClockOp.onTries, ClockTrie.observe, ClockTrie.put, ClockTrie.entry, ClockTrie.new,
    ClockTrie.iter, ClockNode.newLeaf, ClockNode.iterFrom]

end Irokle
