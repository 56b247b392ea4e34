import Irokle.Proof.Request

/-!
# The window goes round

A requester that is behind on more actors than a request may name asks for a run of them and moves the
window on with each page result. Whatever positions the pages report, a run takes at least one actor
and the next one starts where it ended, so how far an actor is ahead of the window falls every round.

* `Turns.runStart` — the next run starts where the last one ended;
* `ahead_turn` — an actor that a run leaves out is nearer afterwards;
* `window_fair` — as many rounds as actors behind name each of them.
-/

namespace Irokle

open Std List

variable {own remote : ActorClock} {a : ActorId} {behind : List ActorId} {after : Option ActorId}
  {hints : List ActorRangeHint} {window : ActorWindow}

/-- A request, then the result of a page that is not continued. -/
structure Round where
  items : ℕ
  positions : BTreeSet ActorId
  received : Bool
  actors : ℕ

/-- The hints of one request, and what the requester carries over from its page. -/
def Round.run (own remote : ActorClock) (k : RequestKnowledge) (r : Round) : Option
    (List ActorRangeHint × RequestKnowledge) := do
  let (hints, window) ← requestRanges own remote r.items k
  return (hints, k.settle window r.positions false r.received r.actors)

/-- The hints of consecutive requests. -/
def requestRounds (own remote : ActorClock) : RequestKnowledge → List Round → Option (List (List ActorRangeHint))
  | _, [] => some []
  | k, r :: rs => do
    let (hints, k) ← r.run own remote k
    let rest ← requestRounds own remote k rs
    return hints :: rest

/-- A page that is not continued moves the window on. -/
theorem settle_after (k : RequestKnowledge) (window : ActorWindow) (positions : BTreeSet ActorId)
    (received : Bool) (actors : ℕ) :
    (k.settle window positions false received actors).after = window.through := by
  unfold RequestKnowledge.settle
  dsimp only
  rw [if_neg Bool.false_ne_true]
  split <;> rfl

theorem runStart_lt (hne : behind ≠ []) : runStart behind after < behind.length := by
  unfold runStart
  dsimp only
  split
  · exact length_pos_of_ne_nil hne
  · rename_i h
    exact Nat.lt_of_le_of_ne (List.takeWhile_prefix _).length_le h

/-- A run after the last actor of a part starts with the first one behind the part. -/
theorem runStart_getLast {m : ℕ} {last : ActorId} (hasc : behind.Pairwise (· < ·)) (hm : m < behind.length)
    (hlast : (behind.take m).getLast? = some last) : runStart behind (some last) = m := by
  have hsplit := take_append_drop m behind
  obtain ⟨init, hinit⟩ := getLast?_eq_some_iff.1 hlast
  have hasc' := hasc
  rw [← hsplit, pairwise_append] at hasc'
  obtain ⟨hpart, -, hcross⟩ := hasc'
  have hle : ∀ x ∈ behind.take m, (some last).any (x ≤ ·) = true := by
    intro x hx
    rw [Option.any_some, decide_eq_true_eq]
    rw [hinit] at hx hpart
    rcases mem_append.1 hx with hx | hx
    · exact ((pairwise_append.1 hpart).2.2 x hx last (by simp)).le
    · exact (mem_singleton.1 hx).le
  have hrest : (behind.drop m).takeWhile (fun x => (some last).any (x ≤ ·)) = [] := by
    obtain ⟨x, rest, hx⟩ := exists_cons_of_ne_nil (drop_eq_nil_iff.not.2 (Nat.not_le.2 hm))
    have hlt := hcross last (by rw [hinit]; simp) x (by rw [hx]; exact mem_cons_self)
    rw [hx, takeWhile_cons_of_neg]
    simpa using hlt
  have hlen : (behind.takeWhile fun x => (some last).any (x ≤ ·)).length = m := by
    rw [← hsplit, takeWhile_append_of_pos hle, hrest, append_nil, length_take]
    omega
  unfold runStart
  dsimp only
  rw [hlen, if_neg hm.ne]

/-- The slot after a run of `j` slots from `start`, going round `n` of them. -/
def nextSlot (n start j : ℕ) : ℕ := if start + j = n then 0 else start + j

/-- How far the slot `i` is ahead of `start`, going round `n` slots. -/
def ahead (n start i : ℕ) : ℕ := if start ≤ i then i - start else i + n - start

/-- A slot that a run leaves out is nearer afterwards. -/
theorem ahead_turn {n start i j : ℕ} (hi : i < n) (hj : 1 ≤ j) (hend : start + j ≤ n)
    (hout : ¬(start ≤ i ∧ i < start + j)) :
    ahead n (nextSlot n start j) i < ahead n start i := by
  unfold ahead nextSlot
  split_ifs <;> omega

theorem ahead_lt {n start i : ℕ} (hi : i < n) (hstart : start < n) : ahead n start i < n := by
  unfold ahead
  split <;> omega

/-- The next run starts where the last one ended, and what a run holds is named. -/
theorem Turns.turn (hasc : behind.Pairwise (· < ·)) (T : Turns behind after hints window) :
    ∃ j, 1 ≤ j ∧ runStart behind after + j ≤ behind.length ∧
      runStart behind window.through = nextSlot behind.length (runStart behind after) j ∧
      ∀ i a, behind[i]? = some a → runStart behind after ≤ i ∧ i < runStart behind after + j →
        ∃ h ∈ hints, h.actorId = a := by
  obtain ⟨j, hj, hend, hnamed, hthrough⟩ := T
  set start := runStart behind after
  refine ⟨j, hj, hend, ?_, fun i a ha hin => hnamed a ?_⟩
  · unfold nextSlot
    rw [hthrough]
    split
    · -- the run reached the last actor behind
      simp [runStart]
    · rename_i hpart
      have hne : (behind.drop start).take j ≠ [] := by
        intro hnil
        have := congrArg List.length hnil
        simp only [length_take, length_drop, length_nil] at this
        omega
      have hlast : (behind.take (start + j)).getLast? = some (((behind.drop start).take j).getLast hne) := by
        rw [take_add, getLast?_append_of_ne_nil _ hne, getLast?_eq_some_getLast hne]
      rw [getLast?_eq_some_getLast hne]
      exact runStart_getLast hasc (by omega) hlast
  · refine mem_iff_getElem?.2 ⟨i - start, ?_⟩
    rw [getElem?_take_of_lt (by omega), getElem?_drop, Nat.add_sub_cancel' hin.1]
    exact ha

/-- Rounds name an actor once there are more of them than slots before it. -/
theorem requestRounds_names (hown : own.Fits) (hremote : remote.Fits) {i : ℕ}
    (hi : (actorsBehind own remote)[i]? = some a)
    (rounds : List Round) (hitems : ∀ r ∈ rounds, 1 ≤ r.items) (k : RequestKnowledge) :
    ∃ requests, requestRounds own remote k rounds = some requests ∧
      (ahead (actorsBehind own remote).length (runStart (actorsBehind own remote) k.after) i < rounds.length →
        ∃ hints ∈ requests, ∃ h ∈ hints, h.actorId = a) := by
  have hlt : i < (actorsBehind own remote).length := by
    by_contra h
    rw [getElem?_eq_none (Nat.not_lt.1 h)] at hi
    cases hi
  induction rounds generalizing k with
  | nil => exact ⟨[], rfl, fun h => absurd h (Nat.not_lt_zero _)⟩
  | cons r rounds ih =>
    obtain ⟨hints, window, hranges, R⟩ := requestRanges_ok hown hremote r.items k
    obtain ⟨rest, hrest, hlater⟩ := ih (fun r' hr' => hitems r' (mem_cons_of_mem _ hr'))
      (k.settle window r.positions false r.received r.actors)
    refine ⟨hints :: rest, by simp [requestRounds, Round.run, hranges, hrest], fun hnear => ?_⟩
    rcases R.turns (hitems r mem_cons_self) with hall | T
    · exact ⟨hints, mem_cons_self, hall a (mem_of_getElem? hi)⟩
    · obtain ⟨j, hj, hend, hnext, hnamed⟩ := T.turn actorsBehind_ascending
      by_cases hin : runStart (actorsBehind own remote) k.after ≤ i ∧
        i < runStart (actorsBehind own remote) k.after + j
      · exact ⟨hints, mem_cons_self, hnamed i a hi hin⟩
      · rw [settle_after, hnext] at hlater
        have hnearer := ahead_turn hlt hj hend hin
        obtain ⟨hints', hmem, h⟩ := hlater (Nat.lt_of_lt_of_le hnearer (Nat.lt_succ_iff.1 hnear))
        exact ⟨hints', mem_cons_of_mem _ hmem, h⟩

/-- **Window rotation is fair.** From whatever a requester carries over, as many consecutive rounds as there
are actors it is behind on name each of these actors, whatever the pages report and whatever positive number
of items each request has. -/
theorem window_fair (own remote : ActorClock) (hown : own.Fits) (hremote : remote.Fits) (k : RequestKnowledge)
    (rounds : List Round) (hitems : ∀ r ∈ rounds, 1 ≤ r.items)
    (hrounds : rounds.length = (actorsBehind own remote).length) :
    ∃ requests, requestRounds own remote k rounds = some requests ∧
      ∀ a, own.get a < remote.get a → ∃ hints ∈ requests, ∃ h ∈ hints, h.actorId = a := by
  by_cases hne : actorsBehind own remote = []
  · refine ⟨[], ?_, fun a ha => ?_⟩
    · rw [hne, length_nil, length_eq_zero_iff] at hrounds
      rw [hrounds]
      rfl
    · have := mem_actorsBehind.2 ha
      rw [hne] at this
      cases this
  · have hnames : ∀ a, own.get a < remote.get a → ∃ requests, requestRounds own remote k rounds = some requests ∧
        ∃ hints ∈ requests, ∃ h ∈ hints, h.actorId = a := by
      intro a ha
      obtain ⟨i, hi⟩ := mem_iff_getElem?.1 (mem_actorsBehind.2 ha)
      have hlt : i < (actorsBehind own remote).length := (List.getElem?_eq_some_iff.1 hi).1
      obtain ⟨requests, hrequests, h⟩ := requestRounds_names hown hremote hi rounds hitems k
      refine ⟨requests, hrequests, h ?_⟩
      rw [hrounds]
      exact ahead_lt hlt (runStart_lt hne)
    obtain ⟨first, hfirst⟩ := exists_mem_of_ne_nil _ hne
    obtain ⟨requests, hrequests, -⟩ := hnames first (mem_actorsBehind.1 hfirst)
    refine ⟨requests, hrequests, fun a ha => ?_⟩
    obtain ⟨requests', hrequests', h⟩ := hnames a ha
    rw [hrequests] at hrequests'
    cases hrequests'
    exact h

/-- A clock with two entries. -/
def twoEntries : ActorClock := (oneEntry ⟨7⟩ 5).insert ⟨9⟩ 3

/-- Two requests of one item each, the second after a page that needed the position of the second actor. -/
theorem window_fair_twoEntries : ∃ requests,
    requestRounds ∅ twoEntries {} [⟨1, {⟨9⟩}, false, 2⟩, ⟨1, ∅, true, 2⟩] = some requests ∧
      ∀ a, (∅ : ActorClock).get a < twoEntries.get a → ∃ hints ∈ requests, ∃ h ∈ hints, h.actorId = a := by
  have hfits : twoEntries.Fits := by
    intro a
    rw [ActorClock.get, twoEntries, ExtTreeMap.getElem?_insert]
    split
    · decide
    · exact oneEntry_fits ⟨7⟩ (by decide) a
  exact window_fair ∅ twoEntries ActorClock.fits_empty hfits {} _ (by simp) (by decide +kernel)

end Irokle
