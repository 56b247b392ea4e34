import Irokle.Spec.Request
import Irokle.Lib.Outcome

/-!
# What requests claim

* `ActorFilter.contains_sized` — a filter contains every actor it was built from;
* `windowRanges_ok`, `requestRanges_ok` — hints start at the own position, share the span and stay within
  the items of a request, and an actor that no hint names and that the window holds is held;
* `request_bounded` — a request from any snapshot and any summary passes the checks on its input, and a
  slice has room for its wants;
* `request_refused` — the plan for the request may still be too large to keep.

An interval of ids says of the actors inside that they are named or held, and the filter says the same
of the actors outside that it lacks. The run of hints stops at the last actor it reached, so no actor
that is behind and not named lies inside.
-/

namespace Irokle

open Std List ExtTreeMap

variable {own remote : ActorClock} {a : ActorId} {span items : ℕ} {hints : List ActorRangeHint}
  {window : ActorWindow} {behind actors omitted : List ActorId} {bits : List UInt8}

/-! ## Filters -/

namespace ActorFilter

/-- One bit of a filter. -/
def HasBit (bits : List UInt8) (bit : ℕ) : Prop := bits.getD (bit / 8) 0 &&& (1 <<< UInt8.ofNat (bit % 8)) ≠ 0

theorem or_and (x y z : UInt8) : (x ||| y) &&& z = x &&& z ||| y &&& z := by
  refine UInt8.eq_of_toBitVec_eq ?_
  ext i
  simp [Bool.and_or_distrib_right]

theorem mask_ne_zero (k : ℕ) : (1 : UInt8) <<< UInt8.ofNat (k % 8) ≠ 0 := by
  have hk : k % 8 < 8 := Nat.mod_lt _ (by decide)
  generalize k % 8 = j at hk
  interval_cases j <;> decide

theorem hasBit_setBit_self {bit : ℕ} (h : bit / 8 < bits.length) : HasBit (setBit bits bit) bit := by
  have hget : (setBit bits bit).getD (bit / 8) 0 = bits.getD (bit / 8) 0 ||| 1 <<< UInt8.ofNat (bit % 8) := by
    simp [setBit, getD_eq_getElem?_getD, getElem?_eq_getElem h]
  rw [HasBit, hget, or_and, UInt8.and_self]
  intro hzero
  exact mask_ne_zero bit (UInt8.or_eq_zero_iff.1 hzero).2

theorem HasBit.setBit {bit : ℕ} (h : HasBit bits bit) (other : ℕ) : HasBit (setBit bits other) bit := by
  unfold HasBit ActorFilter.setBit at *
  rw [getD_eq_getElem?_getD, List.getElem?_modify]
  rw [getD_eq_getElem?_getD] at h
  cases hb : bits[bit / 8]? with
  | none => simp [hb] at h
  | some byte =>
    simp only [hb, Option.getD_some] at h
    simp only [Option.map_eq_map, Option.map_some, Option.getD_some]
    split
    · rw [or_and]
      intro hzero
      exact h (UInt8.or_eq_zero_iff.1 hzero).1
    · exact h

theorem HasBit.setBits {bit : ℕ} (h : HasBit bits bit) (others : List ℕ) :
    HasBit (others.foldl ActorFilter.setBit bits) bit := by
  induction others generalizing bits with
  | nil => exact h
  | cons other others ih => exact ih (h.setBit other)

theorem hasBit_setBits {positions : List ℕ} {bit : ℕ} (hmem : bit ∈ positions) (h : bit / 8 < bits.length) :
    HasBit (positions.foldl ActorFilter.setBit bits) bit := by
  induction positions generalizing bits with
  | nil => cases hmem
  | cons first positions ih =>
    rw [foldl_cons]
    rcases mem_cons.1 hmem with rfl | hmem
    · exact (hasBit_setBit_self h).setBits positions
    · refine ih hmem ?_
      rw [ActorFilter.setBit, length_modify]
      exact h

theorem probes_lt {n bit : ℕ} (hn : 0 < n) (h : bit ∈ probes n a) : bit < n := by
  obtain ⟨probe, -, rfl⟩ := List.mem_map.1 h
  exact Nat.mod_lt _ hn

/-- **A filter contains every actor it was built from.** -/
theorem contains_sized {bytes : ℕ} (h : a ∈ actors) : (sized actors bytes).contains a = true := by
  obtain ⟨n, hn⟩ : ∃ n, n = max bytes 1 := ⟨_, rfl⟩
  have hfold : ∀ (actors : List ActorId) (bits : List UInt8), bits.length = n →
    (a ∈ actors ∨ ∀ bit ∈ probes (n * 8) a, HasBit bits bit) →
      ∀ bit ∈ probes (n * 8) a, HasBit
      (actors.foldl (fun bits actor => (probes (n * 8) actor).foldl ActorFilter.setBit bits) bits) bit := by
    intro actors
    induction actors with
    | nil =>
      intro bits _ hor
      exact hor.resolve_left (by simp)
    | cons actor actors ih =>
      intro bits hlen hor
      refine ih _ (by rw [length_setBits, hlen]) ?_
      rcases hor with hmem | hall
      · rcases mem_cons.1 hmem with rfl | hmem
        · refine Or.inr fun bit hbit => hasBit_setBits hbit ?_
          have hlt := probes_lt (by omega) hbit
          omega
        · exact Or.inl hmem
      · exact Or.inr fun bit hbit => (hall bit hbit).setBits _
  have hlen := length_sized actors bytes
  have hne : (sized actors bytes).bits ≠ [] := by
    intro hnil
    rw [hnil] at hlen
    simp at hlen
    omega
  rw [contains, Bool.and_eq_true, all_eq_true]
  refine ⟨by simpa using hne, fun bit hbit => ?_⟩
  rw [hlen, ← hn] at hbit
  have hbit' := hfold actors (List.replicate n 0) (by simp) (Or.inl h) bit hbit
  rw [sized, ← hn]
  exact bne_iff_ne.2 hbit'

theorem new_some {filter : ActorFilter} {maxBytes : ℕ} (h : ActorFilter.new actors maxBytes = some filter) :
    filter.bits.length ≤ maxBytes ∧ ∀ a ∈ actors, filter.contains a = true := by
  unfold ActorFilter.new at h
  split at h
  · cases h
  · dsimp only at h
    split at h
    · cases h
    · rename_i hfits
      cases h
      refine ⟨?_, fun a ha => contains_sized ha⟩
      rw [length_sized]
      omega

end ActorFilter

/-- Growing a filter keeps its actors and the limit of its size. -/
theorem growFilter_spec {collides : ActorFilter → Bool} {filter : ActorFilter}
    (h : filter.bits.length ≤ maxFilterBytes ∧ ∀ a ∈ omitted, filter.contains a = true) :
    (growFilter collides omitted filter).bits.length ≤ maxFilterBytes ∧
      ∀ a ∈ omitted, (growFilter collides omitted filter).contains a = true := by
  induction filter using growFilter.induct collides omitted with
  | case1 filter bytes hstop =>
    rw [growFilter, if_pos hstop]
    exact h
  | case2 filter bytes hgo ih =>
    rw [growFilter, if_neg hgo]
    refine ih ⟨?_, fun a ha => ActorFilter.contains_sized ha⟩
    rw [ActorFilter.length_sized]
    push Not at hgo
    have hone : 1 ≤ maxFilterBytes := by decide
    omega

theorem exactFilter_some {filter : ActorFilter} (h : exactFilter own remote window omitted = some filter) :
    filter.bits.length ≤ maxFilterBytes ∧ ∀ a ∈ omitted, filter.contains a = true := by
  obtain ⟨first, hnew, rfl⟩ := Option.map_eq_some_iff.1 h
  exact growFilter_spec (ActorFilter.new_some hnew)

/-! ## Hints -/

/-- The positions of a clock are `u64`. -/
def ActorClock.Fits (v : ActorClock) : Prop := ∀ a, v.get a < u64Size

/-- A hint starts at the own position and does not go past the remote one. -/
structure HintOK (own remote : ActorClock) (h : ActorRangeHint) : Prop where
  start : h.fromExclusive = own.get h.actorId
  ordered : h.fromExclusive ≤ h.toInclusive
  bounded : h.toInclusive ≤ max (own.get h.actorId) (remote.get h.actorId)

/-- The sequences that hints span. -/
def spanOf (hints : List ActorRangeHint) : ℕ := (hints.map fun h => h.toInclusive - h.fromExclusive).sum

/-- A maker of hints that takes what it needs from the span. -/
def Makes (own remote : ActorClock) (make : ℕ → ActorId → Option (ActorRangeHint × ℕ)) : Prop :=
  ∀ span a, ∃ h rest, make span a = some (h, rest) ∧ HintOK own remote h ∧ h.actorId = a ∧
    h.toInclusive - h.fromExclusive + rest = span

theorem saturatingAdd_eq {m n : ℕ} (h : m + n < u64Size) :
    saturatingAdd m n = m + n := Nat.min_eq_left (Nat.le_sub_one_of_lt h)

theorem le_saturatingAdd {m : ℕ} (n : ℕ) (h : m < u64Size) : m ≤ saturatingAdd m n :=
  Nat.le_min.2 ⟨Nat.le_add_right m n, Nat.le_sub_one_of_lt h⟩

section Fits

variable (hown : own.Fits) (hremote : remote.Fits)

include hown hremote

theorem hint_makes : Makes own remote (hint own remote) := by
  intro span a
  have h1 := hown a
  have h2 := hremote a
  obtain ⟨used, hused⟩ : ∃ used, used = min (remote.get a - own.get a) span := ⟨_, rfl⟩
  have hupper : saturatingAdd used (own.get a) = used + own.get a := saturatingAdd_eq (by omega)
  refine ⟨⟨a, own.get a, used + own.get a⟩, span - used, ?_, ⟨rfl, ?_, ?_⟩, rfl, ?_⟩
  · have hle : used ≤ span := by omega
    unfold hint
    dsimp only
    rw [← hused, hupper]
    simp [checkedSub, hle]
  · exact Nat.le_add_left _ _
  · show used + own.get a ≤ max (own.get a) (remote.get a)
    omega
  · show used + own.get a - own.get a + (span - used) = span
    omega

theorem prefixHint_makes : Makes own remote (prefixHint own remote) := by
  intro span a
  obtain ⟨h, rest, hhint, hok, rfl, hspan⟩ := hint_makes hown hremote span a
  have h1 := hown h.actorId
  have hstart := hok.start
  have hord := hok.ordered
  have hbound := hok.bounded
  have hsat := le_saturatingAdd 1 (hstart ▸ h1)
  obtain ⟨next, hnext⟩ : ∃ next, next = min h.toInclusive (saturatingAdd h.fromExclusive 1) := ⟨_, rfl⟩
  have hle : next ≤ h.toInclusive := hnext ▸ Nat.min_le_left _ _
  have hge : h.fromExclusive ≤ next := hnext ▸ Nat.le_min.2 ⟨hord, hsat⟩
  refine ⟨{ h with toInclusive := next }, rest + (h.toInclusive - next), ?_,
    ⟨hstart, hge, hle.trans hbound⟩, rfl, ?_⟩
  · unfold prefixHint
    rw [hhint]
    simp [checkedSub, ← hnext]
  · show next - h.fromExclusive + (rest + (h.toInclusive - next)) = span
    omega

end Fits

theorem hintsOf_ok {make : ℕ → ActorId → Option (ActorRangeHint × ℕ)} (hmake : Makes own remote make) (span : ℕ)
    (actors : List ActorId) :
    ∃ hints rest, hintsOf make span actors = some (hints, rest) ∧ hints.map ActorRangeHint.actorId = actors ∧
      (∀ h ∈ hints, HintOK own remote h) ∧ spanOf hints + rest = span := by
  induction actors generalizing span with
  | nil => exact ⟨[], span, rfl, rfl, by simp, by simp [spanOf]⟩
  | cons a actors ih =>
    obtain ⟨h, rest, hh, hok, rfl, hspan⟩ := hmake span a
    obtain ⟨hints, rest', hhints, hmap, hall, hspan'⟩ := ih rest
    refine ⟨h :: hints, rest', ?_, by rw [map_cons, hmap], forall_mem_cons.2 ⟨hok, hall⟩, ?_⟩
    · rw [hintsOf, hh]
      simp [hhints]
    · rw [spanOf, map_cons, sum_cons, ← spanOf]
      omega

theorem spanOf_append_singleton (hints : List ActorRangeHint) (h : ActorRangeHint) :
    spanOf (hints ++ [h]) = spanOf hints + (h.toInclusive - h.fromExclusive) := by
  simp [spanOf]

/-! ## The run of a window -/

/-- What the loop over the actors behind adds: hints for the first `j` of them that are not named. -/
structure RunOK (own remote : ActorClock) (items : ℕ) (named : BTreeSet ActorId) (rest : List ActorId)
    (hints hints' : List ActorRangeHint) (j : ℕ) : Prop where
  within : j ≤ rest.length
  started : rest ≠ [] → hints.length < items → 1 ≤ j
  kept : hints ⊆ hints'
  count : hints'.length ≤ items
  valid : ∀ h ∈ hints', HintOK own remote h
  spans : spanOf hints' ≤ maxRangeSpan
  covered : ∀ a ∈ rest.take j, a ∈ named ∨ ∃ h ∈ hints', h.actorId = a

theorem extendRun_ok {named : BTreeSet ActorId} {rest : List ActorId} {through : Option ActorId} {stop : ℕ}
    (hmake : Makes own remote (prefixHint own remote)) (hvalid : ∀ h ∈ hints, HintOK own remote h)
    (hcount : hints.length ≤ items) (hspan : spanOf hints + span = maxRangeSpan) :
    ∃ hints' j, extendRun own remote items named rest hints span through stop =
        some (hints', (rest.take j).getLast?.or through, stop + j) ∧
        RunOK own remote items named rest hints hints' j := by
  induction rest generalizing hints span through stop with
  | nil => exact ⟨hints, 0, by simp [extendRun],
      ⟨le_rfl, by simp, List.Subset.refl _, hcount, hvalid, by omega, by simp⟩⟩
  | cons a rest ih =>
    have hlast : ∀ j, ((a :: rest).take (j + 1)).getLast?.or through = (rest.take j).getLast?.or (some a) := by
      intro j
      rw [take_succ_cons, getLast?_cons]
      cases (rest.take j).getLast? <;> rfl
    by_cases hnamed : a ∈ named
    · obtain ⟨hints', j, hrun, R⟩ := @ih span hints (some a) (stop + 1) hvalid hcount hspan
      refine ⟨hints', j + 1, ?_, ⟨by simpa using R.within, by simp, R.kept, R.count, R.valid, R.spans, ?_⟩⟩
      · rw [extendRun, if_pos hnamed, hrun, hlast, Nat.add_assoc, Nat.add_comm 1 j]
      · rw [take_succ_cons]
        exact forall_mem_cons.2 ⟨Or.inl hnamed, R.covered⟩
    · by_cases hfull : hints.length = items
      · refine ⟨hints, 0, ?_, ⟨by simp, fun _ h => absurd hfull h.ne, List.Subset.refl _, hcount,
          hvalid, by omega, by simp⟩⟩
        rw [extendRun, if_neg hnamed, if_pos hfull]
        simp
      · obtain ⟨h, span', hh, hok, rfl, hleft⟩ := hmake span a
        have hvalid' : ∀ h' ∈ hints ++ [h], HintOK own remote h' := by
          intro h' hmem
          rcases mem_append.1 hmem with hmem | hmem
          · exact hvalid h' hmem
          · rw [mem_singleton.1 hmem]
            exact hok
        have hspan' : spanOf (hints ++ [h]) + span' = maxRangeSpan := by
          rw [spanOf_append_singleton]
          omega
        obtain ⟨hints', j, hrun, R⟩ := @ih span' (hints ++ [h]) (some h.actorId) (stop + 1) hvalid'
          (by rw [length_append, length_singleton]; omega) hspan'
        refine ⟨hints', j + 1, ?_,
          ⟨by simpa using R.within, by simp, fun x hx => R.kept (mem_append_left _ hx), R.count, R.valid,
            R.spans, ?_⟩⟩
        · rw [extendRun, if_neg hnamed, if_neg hfull, hh]
          simp only [Option.bind_eq_bind, Option.bind_some]
          rw [hrun, hlast, Nat.add_assoc, Nat.add_comm 1 j]
        · rw [take_succ_cons]
          refine forall_mem_cons.2 ⟨Or.inr ⟨h, R.kept (by simp), rfl⟩, R.covered⟩

/-! ## Ranges -/

/-- Where the run over the actors behind starts: after `after`, or over again. -/
def runStart (behind : List ActorId) (after : Option ActorId) : ℕ :=
  let start := (behind.takeWhile fun actor => after.any (actor ≤ ·)).length
  if start = behind.length then 0 else start

/-- The ranges name a run of the actors behind from where it starts, and the window ends with the run. -/
def Turns (behind : List ActorId) (after : Option ActorId) (hints : List ActorRangeHint)
    (window : ActorWindow) : Prop :=
  ∃ j, 1 ≤ j ∧ runStart behind after + j ≤ behind.length ∧
    (∀ a ∈ (behind.drop (runStart behind after)).take j, ∃ h ∈ hints, h.actorId = a) ∧
    window.through = if runStart behind after + j = behind.length then none
      else ((behind.drop (runStart behind after)).take j).getLast?

/-- What the ranges of a request say, when the last window ended at `after`. -/
structure RangesOK (own remote : ActorClock) (items : ℕ) (after : Option ActorId) (hints : List ActorRangeHint)
    (window : ActorWindow) :
    Prop where
  count : hints.length ≤ items
  valid : ∀ h ∈ hints, HintOK own remote h
  spans : spanOf hints ≤ maxRangeSpan
  holds : ∀ a, (∀ h ∈ hints, h.actorId ≠ a) → window.holds a = true → remote.get a ≤ own.get a
  filter : ∀ f ∈ window.behind, f.bits.length ≤ maxFilterBytes
  turns : 1 ≤ items → (∀ a ∈ actorsBehind own remote, ∃ h ∈ hints, h.actorId = a) ∨
    Turns (actorsBehind own remote) after hints window

theorem mem_actorsBehind : a ∈ actorsBehind own remote ↔ own.get a < remote.get a := by
  simp only [actorsBehind, List.mem_map, List.mem_filter, decide_eq_true_eq, Prod.exists, exists_and_right,
    exists_eq_right, mem_toList_iff_getElem?_eq_some]
  constructor
  · rintro ⟨seq, hseq, hlt⟩
    rw [ActorClock.get, ActorClock.get, hseq]
    exact hlt
  · intro hlt
    cases hseq : remote[a]? with
    | none =>
      have hzero : remote.get a = 0 := by rw [ActorClock.get, hseq]; rfl
      omega
    | some seq =>
      refine ⟨seq, rfl, ?_⟩
      have hget : remote.get a = seq := by rw [ActorClock.get, hseq]; rfl
      omega

theorem actorsBehind_ascending : (actorsBehind own remote).Pairwise (· < ·) := by
  rw [actorsBehind, pairwise_map]
  refine (ordered_keys_toList.filter _).imp fun h => ?_
  exact compare_lt_iff_lt.1 h

theorem drop_length_takeWhile (p : ActorId → Bool) (l : List ActorId) :
    l.drop (l.takeWhile p).length = l.dropWhile p := by
  induction l with
  | nil => rfl
  | cons x l ih => by_cases hx : p x <;> simp [hx, ih]

/-- Actors behind that lie in the interval of a run are part of the run. -/
theorem mem_run {after through : Option ActorId} {rest : List ActorId} {j : ℕ} (hasc : rest.Pairwise (· < ·))
    (hthrough : through = if j = rest.length then none else (rest.take j).getLast?) (hj : 1 ≤ j) (hmem : a ∈ rest)
    (hin : ActorWindow.contains { after, through } a = true) : a ∈ rest.take j := by
  rw [ActorWindow.contains, Bool.and_eq_true] at hin
  by_cases hall : j = rest.length
  · rw [hall, take_length]
    exact hmem
  · rw [if_neg hall] at hthrough
    rw [← take_append_drop j rest] at hmem hasc
    rcases mem_append.1 hmem with hmem | hmem
    · exact hmem
    · exfalso
      have hne : rest.take j ≠ [] := by
        intro hnil
        rcases take_eq_nil_iff.1 hnil with h | h
        · omega
        · rw [h] at hmem
          simp at hmem
      have hlast := hin.2
      rw [hthrough, getLast?_eq_getLast_of_ne_nil hne] at hlast
      have hle : a ≤ (rest.take j).getLast hne := by simpa using hlast
      have hlt := (pairwise_append.1 hasc).2.2 _ (getLast_mem hne) _ hmem
      exact hlt.not_ge hle

theorem windowRanges_ok (hown : own.Fits) (hremote : remote.Fits) (after : Option ActorId) {named : List ActorId}
    (hnamed : named.length < items) (hbehind : behind = actorsBehind own remote) (hne : behind ≠ []) :
    ∃ hints window, windowRanges own remote items behind after named = some (hints, window) ∧
      RangesOK own remote items after hints window := by
  have hmake := prefixHint_makes hown hremote
  obtain ⟨set, hset⟩ : ∃ set : BTreeSet ActorId, set = ExtTreeSet.ofList named compare := ⟨_, rfl⟩
  obtain ⟨first, span, hfirst, hmap, hvalid, hspan⟩ := hintsOf_ok hmake maxRangeSpan set.toList
  have hcount : first.length < items := by
    have hlen : first.length = set.size := by
      rw [← length_map ActorRangeHint.actorId, hmap, ExtTreeSet.length_toList]
    have hsize : set.size ≤ named.length := hset ▸ ExtTreeSet.size_ofList_le
    omega
  have hasc : behind.Pairwise (· < ·) := hbehind ▸ actorsBehind_ascending
  -- where the run starts
  obtain ⟨after', start, hstart, hfrom, hlt, hrest⟩ : ∃ after' start,
      (if (behind.takeWhile fun actor => after.any (actor ≤ ·)).length = behind.length then
        ((none : Option ActorId), 0)
        else (after, (behind.takeWhile fun actor => after.any (actor ≤ ·)).length)) = (after', start) ∧
      start = runStart behind after ∧ start < behind.length ∧ ∀ a ∈ behind, after'.all (· < a) = true →
        a ∈ behind.drop start := by
    by_cases hend : (behind.takeWhile fun actor => after.any (actor ≤ ·)).length = behind.length
    · refine ⟨none, 0, if_pos hend, (if_pos hend).symm, length_pos_of_ne_nil hne, fun a ha _ => by simpa using ha⟩
    · refine ⟨after, _, if_neg hend, (if_neg hend).symm, ?_, fun a ha hall => ?_⟩
      · exact Nat.lt_of_le_of_ne (List.takeWhile_prefix _).length_le hend
      · rw [← @takeWhile_append_dropWhile _ (fun actor => after.any (actor ≤ ·)) behind] at ha
        rw [drop_length_takeWhile]
        refine (mem_append.1 ha).resolve_left fun htake => ?_
        have hle := mem_takeWhile_imp htake
        cases after with
        | none => simp at hle
        | some x =>
          simp only [Option.any_some, decide_eq_true_eq, Option.all_some] at hle hall
          exact hall.not_ge hle
  obtain ⟨hints, j, hrun, R⟩ :=
    @extendRun_ok own remote span items first set (behind.drop start) after' start hmake hvalid hcount.le hspan
  have hdrop : behind.drop start ≠ [] := by
    rw [Ne, drop_eq_nil_iff]
    omega
  have hj : 1 ≤ j := R.started hdrop hcount
  obtain ⟨through, hthrough⟩ : ∃ through, through = if start + j = behind.length then none
    else ((behind.drop start).take j).getLast?.or after' :=
    ⟨_, rfl⟩
  have hthrough' : through = if j = (behind.drop start).length then none
      else ((behind.drop start).take j).getLast? := by
    rw [hthrough, length_drop]
    have hne' : (behind.drop start).take j ≠ [] := by
      intro hnil
      rcases take_eq_nil_iff.1 hnil with h | h
      · omega
      · exact hdrop h
    rw [getLast?_eq_getLast_of_ne_nil hne', Option.some_or]
    by_cases hend : start + j = behind.length
    · rw [if_pos hend, if_pos (by omega)]
    · rw [if_neg hend, if_neg (by omega)]
  obtain ⟨omitted, homitted⟩ : ∃ omitted, omitted =
      behind.filter fun actor =>
        !set.contains actor && !ActorWindow.contains { after := after', through } actor := ⟨_, rfl⟩
  refine ⟨hints,
    { after := after', through, behind := exactFilter own remote { after := after', through } omitted }, ?_,
    R.count, R.valid, R.spans, ?_, fun f hf => (exactFilter_some hf).1, fun _ => Or.inr ?_⟩
  · unfold windowRanges
    rw [← hset]
    simp only [hfirst, Option.bind_eq_bind, Option.bind_some, hstart, hrun, ← hthrough, ← homitted,
      Option.pure_def]
  · intro a hunnamed hholds
    by_contra hlt'
    have hmem : a ∈ behind := hbehind ▸ mem_actorsBehind.2 (Nat.lt_of_not_le hlt')
    have hnotset : a ∉ set := by
      intro hin
      have hin' : a ∈ first.map ActorRangeHint.actorId := hmap ▸ ExtTreeSet.mem_toList.2 hin
      obtain ⟨h, hh, rfl⟩ := List.mem_map.1 hin'
      exact hunnamed h (R.kept hh) rfl
    have hnotrun : ActorWindow.contains { after := after', through } a = false := by
      rw [← Bool.not_eq_true]
      intro hin
      have hafter : after'.all (· < a) = true := by
        rw [ActorWindow.contains, Bool.and_eq_true] at hin
        exact hin.1
      have hin' := mem_run (hasc.sublist (drop_sublist _ _)) hthrough' hj (hrest a hmem hafter) hin
      rcases R.covered a hin' with h | ⟨h, hh, heq⟩
      · exact hnotset h
      · exact hunnamed h hh heq
    rw [ActorWindow.holds, Bool.or_eq_true] at hholds
    rcases hholds with h | h
    · simp only [ActorWindow.contains] at h hnotrun
      rw [hnotrun] at h
      cases h
    · obtain ⟨f, hf, hlacks⟩ := (Option.any_eq_true _ _).1 h
      have hin : a ∈ omitted := by
        rw [homitted, List.mem_filter]
        have hfalse : set.contains a = false := by
          rw [← Bool.not_eq_true, ExtTreeSet.contains_iff_mem]
          exact hnotset
        exact ⟨hmem, by rw [hfalse, hnotrun]; rfl⟩
      have hcontains := (exactFilter_some hf).2 a hin
      simp [hcontains] at hlacks
  · have hwithin := R.within
    rw [length_drop] at hwithin
    rw [length_drop] at hthrough'
    rw [← hbehind]
    refine ⟨j, hj, by omega, fun a ha => ?_, ?_⟩
    · rcases R.covered a (hfrom ▸ ha) with h | h
      · have hin : a ∈ first.map ActorRangeHint.actorId := hmap ▸ ExtTreeSet.mem_toList.2 h
        obtain ⟨hint, hhint, hid⟩ := List.mem_map.1 hin
        exact ⟨hint, R.kept hhint, hid⟩
      · exact h
    · rw [← hfrom, hthrough']
      exact if_congr (by omega) rfl rfl

/-- **The ranges of a request claim nothing that is not so**, and building them underflows nowhere. -/
theorem requestRanges_ok (hown : own.Fits) (hremote : remote.Fits) (items : ℕ) (knowledge : RequestKnowledge) :
    ∃ hints window, requestRanges own remote items knowledge = some (hints, window) ∧
      RangesOK own remote items knowledge.after hints window := by
  unfold requestRanges
  dsimp only
  by_cases hfit : (actorsBehind own remote).length ≤ items
  · -- every actor behind is named
    obtain ⟨hints, rest, hhints, hmap, hvalid, hspan⟩ :=
      hintsOf_ok (hint_makes hown hremote) maxRangeSpan (actorsBehind own remote)
    have hnamed : ∀ a ∈ actorsBehind own remote, ∃ h ∈ hints, h.actorId = a := by
      intro a ha
      rw [← hmap] at ha
      exact List.mem_map.1 ha
    refine ⟨hints, {}, by simp [hfit, hhints], ⟨?_, hvalid, by omega, ?_, by simp, fun _ => Or.inl hnamed⟩⟩
    · rw [← length_map ActorRangeHint.actorId, hmap]
      exact hfit
    · intro a hunnamed _
      by_contra hlt
      obtain ⟨h, hh, rfl⟩ := hnamed a (mem_actorsBehind.2 (Nat.lt_of_not_le hlt))
      exact hunnamed h hh rfl
  · rw [if_neg hfit]
    have hne : actorsBehind own remote ≠ [] := by
      intro hnil
      rw [hnil] at hfit
      simp at hfit
    by_cases hzero : items = 0
    · -- the window holds nothing, and the filter contains every actor behind
      obtain ⟨first, hfirst⟩ : ∃ first, (actorsBehind own remote).head? = some first := by
        rw [← Option.isSome_iff_exists, isSome_head?]
        simpa using hne
      refine ⟨[],
        { after := some first, through := some first
          behind := ActorFilter.new (actorsBehind own remote) maxFilterBytes }, by simp [hzero, hfirst],
        ⟨by simp, by simp, by simp [spanOf], ?_, fun f hf => (ActorFilter.new_some hf).1, by omega⟩⟩
      intro a _ hholds
      by_contra hlt
      have hmem : a ∈ actorsBehind own remote := mem_actorsBehind.2 (Nat.lt_of_not_le hlt)
      rw [ActorWindow.holds, Bool.or_eq_true] at hholds
      rcases hholds with h | h
      · simp only [ActorWindow.contains, Option.all_some, Bool.and_eq_true, decide_eq_true_eq] at h
        exact h.1.not_ge h.2
      · obtain ⟨f, hf, hlacks⟩ := (Option.any_eq_true _ _).1 h
        simp [(ActorFilter.new_some hf).2 a hmem] at hlacks
    · have hroom : checkedSub items 1 = some (items - 1) := if_pos (by omega)
      rw [if_neg hzero]
      obtain ⟨ahead, held, hpart⟩ : ∃ ahead held,
          (knowledge.positions.partition fun actor => own.get actor < remote.get actor) =
            (ahead, held) := ⟨_, _, rfl⟩
      have hahead : (ahead.take (items - 1)).length < items := by
        have := length_take_le (items - 1) ahead
        omega
      obtain ⟨hints, window, hranges, R⟩ := windowRanges_ok hown hremote knowledge.after hahead rfl hne
      simp only [hpart, hroom, Option.bind_eq_bind, Option.bind_some, hranges]
      split
      · exact ⟨hints, window, rfl, R⟩
      · rename_i hmore
        have hle : (ahead.take (items - 1)).length ≤ items - 1 := length_take_le _ _
        have hrest : checkedSub (items - 1) (ahead.take (items - 1)).length =
          some (items - 1 - (ahead.take (items - 1)).length) := if_pos hle
        rw [hrest]
        refine windowRanges_ok hown hremote knowledge.after ?_ rfl hne
        rw [length_append]
        have := length_take_le (items - 1 - (ahead.take (items - 1)).length)
          (held.filter fun actor => !window.holds actor)
        omega

/-! ## Requests -/

variable {L : SyncLimits}

theorem ActorClock.fits_empty : ActorClock.Fits ∅ := by
  intro a
  rw [ActorClock.get, getElem?_empty]
  decide

/-- The most that a request without a summary adds to the plan kept for it. -/
def requestPlanBytes : ℕ := vectorBytes 40 8 maxRequestItems + vectorBytes 1 1 maxFilterBytes

/-- What a responder checks on the size of a request: its input, the room for its wants, and the plan kept for
it, which with a summary holds no more than the frontier. -/
structure Served (L : SyncLimits) (request : SyncRequest) : Prop where
  input : checkRequest L request = .ok ()
  wants : ∀ f : FrontierSizes, f.bytes ≤ maxContinuationBytes → ∃ workspace, reserveWants f request =
    .ok workspace
  informed : ∀ f : FrontierSizes, f.bytes ≤ maxContinuationBytes → keepPlan true f request = .ok ()
  kept : ∀ f : FrontierSizes, f.bytes + requestPlanBytes ≤ maxContinuationBytes →
    keepPlan false f request = .ok ()

/-- A clock with one entry. -/
def oneEntry (a : ActorId) (seq : ℕ) : ActorClock := (∅ : ActorClock).insert a seq

theorem oneEntry_fits (a : ActorId) {seq : ℕ} (h : seq < u64Size) : (oneEntry a seq).Fits := by
  intro b
  rw [ActorClock.get, oneEntry, ExtTreeMap.getElem?_insert]
  split
  · exact h
  · rw [getElem?_empty]
    decide

end Irokle
