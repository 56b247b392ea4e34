import Irokle.Proof.Storage

/-!
# Removing buffered ops with their waiters

A rejection takes a buffered op with everything that transitively waits on it, a purge the waiters
alone, and a sweep each op that was idle for too long with its waiters. The sweep computes the waiters
of one op after another on the index it shrinks; since what goes is closed under waiting, the waiters
of a later op in the shrunken index are those it had at the start, but for what is gone already.

* `PendingOK.reject_removes`, `PendingOK.purge_removes`, `PendingOK.expire_removes` — what each one takes;
* `since_run` — the recorded times are those of the first sweep in a row that left the op buffered;
* `removal_closes` — both together, in every reachable store.
-/

namespace Irokle

open Std Relation Outcome List ExtTreeMap

variable {E : Env} {p p' : PendingIndex} {goes : OpId → Prop} {ids : List OpId} {x y dep : OpId}

/-- `p'` is `p` without exactly the ops that `goes` names. -/
def Drops (p : PendingIndex) (goes : OpId → Prop) (p' : PendingIndex) : Prop :=
  ∀ (y : OpId) rec, p'.pendingRecords[y]? = some rec ↔ p.pendingRecords[y]? = some rec ∧ ¬ goes y

/-- No op left in `p'` waits, directly or through others left, on an op that is gone. -/
def Closes (p p' : PendingIndex) : Prop :=
  ∀ x, x ∈ p.pendingRecords → x ∉ p'.pendingRecords → ∀ y, ¬ TransGen p'.Waits x y

theorem Removed.drops (R : Removed p ids p') (h : ∀ y, y ∈ ids ↔ goes y) : Drops p goes p' := by
  intro y rec
  rw [R.getElem?_records, h]
  tauto

theorem mem_pendingRecords : y ∈ p.pendingRecords ↔ ∃ rec, p.pendingRecords[y]? = some rec := by
  rw [mem_iff_isSome_getElem?, Option.isSome_iff_exists]

theorem Drops.mem (T : Drops p goes p') : y ∈ p'.pendingRecords ↔ y ∈ p.pendingRecords ∧ ¬ goes y := by
  rw [mem_pendingRecords, mem_pendingRecords]
  constructor
  · rintro ⟨rec, h⟩
    obtain ⟨h, hy⟩ := (T y rec).1 h
    exact ⟨⟨rec, h⟩, hy⟩
  · rintro ⟨⟨rec, h⟩, hy⟩
    exact ⟨rec, (T y rec).2 ⟨h, hy⟩⟩

/-- What is left waits as before. -/
theorem Drops.waits (ok : PendingOK p) (ok' : PendingOK p') (T : Drops p goes p') :
    p'.Waits x y ↔ p.Waits x y ∧ ¬ goes y := by
  unfold PendingIndex.Waits
  rw [ok'.waiters, ok.waiters]
  constructor
  · rintro ⟨rec, h, hx⟩
    obtain ⟨h, hy⟩ := (T y rec).1 h
    exact ⟨⟨rec, h, hx⟩, hy⟩
  · rintro ⟨⟨rec, h, hx⟩, hy⟩
    exact ⟨rec, (T y rec).2 ⟨h, hy⟩, hx⟩

/-- What goes, goes with its waiters. -/
def Upward (p : PendingIndex) (goes : OpId → Prop) : Prop := ∀ x y, goes x → p.Waits x y → goes y

theorem Drops.closes (ok : PendingOK p) (ok' : PendingOK p') (T : Drops p goes p') (hup : Upward p goes) :
    Closes p p' := by
  intro x hx hx' y hwait
  have hgoes : goes x := by
    by_contra hno
    exact hx' (T.mem.2 ⟨hx, hno⟩)
  -- the first op of the chain waits on what is gone
  obtain ⟨z, hz, -⟩ := TransGen.head'_iff.1 hwait
  obtain ⟨hz, hstay⟩ := (T.waits ok ok').1 hz
  exact hstay (hup x z hgoes hz)

/-- An op with its waiters goes with its waiters. -/
theorem upward_subtree (dep : OpId) : Upward p fun y => y = dep ∨ TransGen p.Waits dep y := by
  rintro x y (rfl | hx) hxy
  · exact Or.inr (.single hxy)
  · exact Or.inr (hx.tail hxy)

theorem mem_subtree : y ∈ ((p.waiterClosureLocked dep).insert dep).toList ↔ y = dep ∨ TransGen p.Waits dep y := by
  rw [ExtTreeSet.mem_toList, ExtTreeSet.mem_insert, PendingIndex.mem_waiterClosure, Std.compare_eq_iff_eq]
  constructor
  · rintro (rfl | ⟨-, h⟩)
    · exact Or.inl rfl
    · exact Or.inr h
  · rintro (rfl | h)
    · exact Or.inl rfl
    · by_cases hy : dep = y
      · exact Or.inl hy
      · exact Or.inr ⟨Ne.symm hy, h⟩

/-! ## Rejections and purges -/

/-- **A rejection takes a buffered op with its waiters**, and nothing when the op is not buffered. -/
theorem PendingOK.reject_removes (ok : PendingOK p) (reserve : Result Unit) (x : OpId) :
    (∃ e, p.rejectPendingSubtree reserve x = (.error e, p)) ∨
      ∃ k p', p.rejectPendingSubtree reserve x = (.ok k, p') ∧
        Drops p (fun y => x ∈ p.pendingRecords ∧ (y = x ∨ TransGen p.Waits x y)) p' ∧ Closes p p' := by
  unfold PendingIndex.rejectPendingSubtree
  cases hx : p.pendingRecords[x]? with
  | none =>
    have hno : x ∉ p.pendingRecords := by
      rw [mem_pendingRecords, hx]
      simp
    exact Or.inr ⟨0, p, rfl, fun y rec => by simp [hno], fun y hy hy' => absurd hy hy'⟩
  | some rec =>
    have hin : x ∈ p.pendingRecords := mem_pendingRecords.2 ⟨rec, hx⟩
    dsimp only
    cases reserve with
    | error e => exact Or.inl ⟨e, rfl⟩
    | ok u =>
      obtain ⟨p', h, ok', R⟩ := ok.removeAll ((p.waiterClosureLocked x).insert x).toList
      have T : Drops p (fun y => y = x ∨ TransGen p.Waits x y) p' := R.drops fun y => mem_subtree
      have C := T.closes ok ok' (upward_subtree x)
      have T' : Drops p (fun y => x ∈ p.pendingRecords ∧ (y = x ∨ TransGen p.Waits x y)) p' := by
        intro y rec
        simpa only [and_iff_right hin] using T y rec
      simp only [h]
      exact Or.inr ⟨_, _, rfl, T', C⟩

/-- **A purge takes the waiters of an op**, and what is left waits on them only when it is the op itself. -/
theorem PendingOK.purge_removes (ok : PendingOK p) (x : OpId) :
    ∃ k p', p.purgePendingWaiters x = (.ok k, p') ∧ Drops p (fun y => y ≠ x ∧ TransGen p.Waits x y) p' ∧
      ∀ z, z ∈ p.pendingRecords → z ∉ p'.pendingRecords → ∀ y, TransGen p'.Waits z y → y = x := by
  obtain ⟨p', h, ok', R⟩ := ok.removeAll (p.waiterClosureLocked x).toList
  have T : Drops p (fun y => y ≠ x ∧ TransGen p.Waits x y) p' := R.drops fun y => by
    rw [ExtTreeSet.mem_toList, PendingIndex.mem_waiterClosure]
  refine ⟨_, p', by simp only [PendingIndex.purgePendingWaiters, h]; rfl, T, fun z hz hz' y hwait => ?_⟩
  have hgoes : TransGen p.Waits x z := by
    by_contra hno
    exact hz' (T.mem.2 ⟨hz, fun h => hno h.2⟩)
  have hchain : ∀ {y}, TransGen p'.Waits z y → y = x ∧ TransGen p.Waits x y := by
    intro y hwait
    induction hwait with
    | single h =>
      obtain ⟨h, hstay⟩ := (T.waits ok ok').1 h
      have := hgoes.tail h
      exact ⟨by_contra fun hne => hstay ⟨hne, this⟩, this⟩
    | tail _ h ih =>
      obtain ⟨h, hstay⟩ := (T.waits ok ok').1 h
      have := ih.2.tail h
      exact ⟨by_contra fun hne => hstay ⟨hne, this⟩, this⟩
  exact (hchain hwait).1

/-! ## Sweeps -/

/-- Only buffered ops are timed. -/
def Timed (p : PendingIndex) : Prop := ∀ y, y ∉ p.pendingRecords → p.pendingSince[y]? = none

/-- `p'` is `p` after ops expired: what is left keeps its time. -/
structure Expired (p : PendingIndex) (goes : OpId → Prop) (p' : PendingIndex) : Prop where
  ok : PendingOK p'
  timed : Timed p'
  takes : Drops p goes p'
  since : ∀ y, y ∈ p'.pendingRecords → p'.pendingSince[y]? = p.pendingSince[y]?

theorem Expired.nil (ok : PendingOK p) (ht : Timed p) : Expired p (fun _ => False) p :=
  ⟨ok, ht, fun y rec => by simp, fun _ _ => rfl⟩

theorem Expired.congr {goes' : OpId → Prop} (X : Expired p goes p')
    (h : ∀ y, y ∈ p.pendingRecords → (goes y ↔ goes' y)) :
    Expired p goes' p' := by
  refine ⟨X.ok, X.timed, fun y rec => ?_, X.since⟩
  rw [X.takes y rec]
  refine and_congr_right fun hy => ?_
  rw [h y (mem_pendingRecords.2 ⟨rec, hy⟩)]

theorem Expired.trans {goes' : OpId → Prop} {p'' : PendingIndex} (X : Expired p goes p')
    (X' : Expired p' goes' p'') :
    Expired p (fun y => goes y ∨ goes' y) p'' := by
  refine ⟨X'.ok, X'.timed, fun y rec => ?_, fun y hy => ?_⟩
  · rw [X'.takes y rec, X.takes y rec]
    tauto
  · rw [X'.since y hy, X.since y (X'.takes.mem.1 hy).1]

/-- One op expires, with its time. -/
theorem Expired.remove (ok : PendingOK p) (ht : Timed p) (x : OpId) :
    ∃ p₁, p.removePendingLocked x = .ok p₁ ∧
      Expired p (· = x) { p₁ with pendingSince := p₁.pendingSince.erase x } := by
  obtain ⟨p₁, h, ok₁, R⟩ := ok.remove x
  have T : Drops p (· = x) p₁ := R.drops fun y => mem_singleton
  have herase : ∀ y : OpId, (p₁.pendingSince.erase x)[y]? = if x = y then none else p.pendingSince[y]? := by
    intro y
    rw [R.since, getElem?_erase]
    by_cases hxy : x = y <;> simp [hxy]
  refine ⟨p₁, h, ok₁.withSince _, fun y hy => ?_, T, fun y hy => ?_⟩
  · change (p₁.pendingSince.erase x)[y]? = none
    rw [herase]
    split
    · rfl
    · rename_i hxy
      exact ht y fun hin => hy (T.mem.2 ⟨hin, Ne.symm hxy⟩)
  · change (p₁.pendingSince.erase x)[y]? = _
    rw [herase, if_neg (Ne.symm (T.mem.1 hy).2)]

theorem expireIds_removes (ok : PendingOK p) (ht : Timed p) (removed : BTreeSet OpId) (l : List OpId) :
    ∃ removed' p', p.expireIds removed l = (.ok removed', p') ∧ Expired p (· ∈ l) p' := by
  induction l generalizing p removed with
  | nil => exact ⟨removed, p, rfl, (Expired.nil ok ht).congr fun y _ => by simp⟩
  | cons x l ih =>
    unfold PendingIndex.expireIds
    split
    · obtain ⟨p₁, h₁, X₁⟩ := Expired.remove ok ht x
      obtain ⟨removed', p', h', X'⟩ := ih X₁.ok X₁.timed (removed.insert x)
      exact ⟨removed', p', by simp only [h₁, h'], (X₁.trans X').congr fun y _ => by rw [mem_cons]⟩
    · rename_i hx
      have hx : x ∉ p.pendingRecords := fun h => hx (mem_iff_contains.1 h)
      obtain ⟨removed', p', h', X'⟩ := ih ok ht removed
      refine ⟨removed', p', h', X'.congr fun y hy => ?_⟩
      have hne : y ≠ x := fun h => hx (h ▸ hy)
      simp [hne]

/-- While `goes` takes what it names with its waiters, the chains to what is left are left. -/
theorem Drops.transGen (ok : PendingOK p) (ok' : PendingOK p') (T : Drops p goes p') (hup : Upward p goes)
    (hy : ¬ goes y) :
    TransGen p'.Waits x y ↔ TransGen p.Waits x y := by
  constructor
  · exact fun h => TransGen.mono (fun a b hab => ((T.waits ok ok').1 hab).1) _ _ h
  · intro h
    induction h with
    | single h => exact .single ((T.waits ok ok').2 ⟨h, hy⟩)
    | @tail b c _ hbc ih => exact (ih fun hb => hy (hup b c hb hbc)).tail ((T.waits ok ok').2 ⟨hbc, hy⟩)

/-- **The sweep takes each op of its list with the waiters it had at the start.** -/
theorem expireAll_removes (ok : PendingOK p) (ht : Timed p) (removed : BTreeSet OpId) (l : List OpId) :
    ∃ removed' p', p.expireAll removed l = (.ok removed', p') ∧
      Expired p (fun y => ∃ r ∈ l, y = r ∨ TransGen p.Waits r y) p' := by
  induction l generalizing p removed with
  | nil => exact ⟨removed, p, rfl, (Expired.nil ok ht).congr fun y _ => by simp⟩
  | cons x l ih =>
    obtain ⟨removed₁, p₁, h₁, X₁⟩ := expireIds_removes ok ht removed ((p.waiterClosureLocked x).insert x).toList
    have X₁ : Expired p (fun y => y = x ∨ TransGen p.Waits x y) p₁ := X₁.congr fun y _ => mem_subtree
    obtain ⟨removed', p', h', X'⟩ := ih X₁.ok X₁.timed removed₁
    refine ⟨removed', p', by simp only [PendingIndex.expireAll, h₁, h'], (X₁.trans X').congr fun y _ => ?_⟩
    by_cases hy : y = x ∨ TransGen p.Waits x y
    · exact ⟨fun _ => ⟨x, mem_cons_self, hy⟩, fun _ => Or.inl hy⟩
    · have hchain : ∀ r, TransGen p₁.Waits r y ↔ TransGen p.Waits r y := fun r =>
        X₁.takes.transGen ok X₁.ok (upward_subtree x) hy
      simp only [hy, false_or, hchain, exists_mem_cons_iff]

theorem upward_subtrees (roots : OpId → Prop) :
    Upward p fun y => ∃ r, roots r ∧ (y = r ∨ TransGen p.Waits r y) := by
  rintro x y ⟨r, hr, hx⟩ hxy
  exact ⟨r, hr, upward_subtree r x y hx hxy⟩

/-- An op has been idle for too long at `now`, counted from the sweep that timed it. -/
def Overdue (p : PendingIndex) (now maxIdle : ℕ) (r : OpId) : Prop :=
  min (p.pendingSince[r]?.getD now + maxIdle) (u64Size - 1) < now

/-- An op no sweep has timed is not overdue. -/
theorem overdue_iff {now : ℕ} (hnow : now < u64Size) (maxIdle : ℕ) (r : OpId) :
    Overdue p now maxIdle r ↔ ∃ first, p.pendingSince[r]? = some first ∧ first + maxIdle < now := by
  unfold Overdue
  cases p.pendingSince[r]? with
  | none =>
    simp only [Option.getD_none, reduceCtorEq, false_and, exists_false, iff_false, Nat.not_lt]
    omega
  | some first =>
    simp only [Option.getD_some, Option.some.injEq, exists_eq_left']
    omega

/-- What a sweep does: the overdue ops go with their waiters, and the others are timed from the
first sweep that saw them. -/
structure Swept (p : PendingIndex) (now maxIdle : ℕ) (p' : PendingIndex) : Prop where
  ok : PendingOK p'
  takes : Drops p (fun y => ∃ r, (r ∈ p.pendingRecords ∧ Overdue p now maxIdle r) ∧
    (y = r ∨ TransGen p.Waits r y)) p'
  since : ∀ y : OpId, p'.pendingSince[y]? = if y ∈ p'.pendingRecords then
    some (p.pendingSince[y]?.getD now) else none

theorem PendingOK.expire_removes (ok : PendingOK p) (now maxIdle : ℕ) :
    ∃ k p', p.expirePending now maxIdle = (.ok k, p') ∧ Swept p now maxIdle p' := by
  set timed : PendingIndex := { p with pendingSince := p.sweepSince now } with htimed
  have ht : Timed timed := by
    intro y hy
    change (p.sweepSince now)[y]? = none
    rw [PendingIndex.getElem?_sweepSince, if_neg hy]
  set expired := p.pendingRecords.keys.filter fun id =>
    decide (min ((p.sweepSince now)[id]?.getD now + maxIdle) (u64Size - 1) < now) with hexpired
  obtain ⟨removed, p', h, X⟩ := expireAll_removes (ok.withSince (p.sweepSince now)) ht ∅ expired
  have hmem : ∀ r, r ∈ expired ↔ r ∈ p.pendingRecords ∧ Overdue p now maxIdle r := by
    intro r
    rw [hexpired, List.mem_filter, ExtTreeMap.mem_keys, decide_eq_true_eq]
    refine and_congr_right fun hr => ?_
    rw [PendingIndex.getElem?_sweepSince, if_pos hr, Option.getD_some]
    exact Iff.rfl
  refine ⟨removed.size, p', ?_, X.ok, fun y rec => ?_, fun y => ?_⟩
  · unfold PendingIndex.expirePending
    dsimp only
    rw [h]
  · rw [X.takes y rec]
    simp only [hmem]
    exact Iff.rfl
  · split
    · rename_i hy
      rw [X.since y hy]
      change (p.sweepSince now)[y]? = _
      rw [PendingIndex.getElem?_sweepSince, if_pos (X.takes.mem.1 hy).1]
    · rename_i hy
      exact X.timed y hy

theorem Swept.closes {now maxIdle : ℕ} (ok : PendingOK p) (S : Swept p now maxIdle p') : Closes p p' :=
  S.takes.closes ok S.ok (upward_subtrees _)

theorem movePending_since (t : TopicId) (stores : List MemoryInner) (p : PendingIndex)
    (moves : List (ℕ × OpId × BTreeSet OpId)) : (movePending t stores p moves).pendingSince = p.pendingSince := by
  unfold movePending
  induction moves generalizing p with
  | nil => rfl
  | cons move moves ih =>
    rw [foldl_cons, ih]
    unfold moveOp
    dsimp only
    split <;> rfl

/-! ## Runs -/

/-- The op is buffered in the records a handle locks. -/
def MemoryStorage.buffers (s : MemoryStorage) (v : Option ViewKey) (id : OpId) : Bool :=
  match s.lock v with
  | .ok inner => inner.pendingRecords.contains id
  | .error _ => false

/-- One operation, with the time of the first of the last sweeps through a handle that all left the op
buffered. -/
def watch (E : Env) (v : Option ViewKey) (id : OpId) (st : MemoryStorage × Option ℕ) (ev : StorageEvent) :
    MemoryStorage × Option ℕ :=
  let s := st.1.step E ev
  match ev.op with
  | .write v' (.expirePending now _) =>
    (s, if v' = v then if s.buffers v id then some (st.2.getD now) else none else st.2)
  | _ => (s, st.2)

/-- When a sweep through a handle first saw the op buffered: the time of the first of the last sweeps that all
left it in the buffer. -/
def firstSeen (E : Env) (limits : StagingLimits) (v : Option ViewKey) (id : OpId)
    (evs : List StorageEvent) : Option ℕ :=
  (evs.foldl (watch E v id) ({ limits := limits }, none)).2

theorem watch_fst (v : Option ViewKey) (id : OpId) (st : MemoryStorage × Option ℕ) (ev : StorageEvent) :
    (watch E v id st ev).1 = st.1.step E ev := by
  unfold watch
  dsimp only
  split <;> rfl

theorem watch_run (v : Option ViewKey) (id : OpId) (st : MemoryStorage × Option ℕ) (evs : List StorageEvent) :
    (evs.foldl (watch E v id) st).1 = st.1.run E evs := by
  induction evs generalizing st with
  | nil => rfl
  | cons ev evs ih => rw [foldl_cons, ih, watch_fst]; rfl

/-- The times of the records a handle locks are those of the sweeps, and no sweep went through a handle that
is yet to be handed out. -/
structure SinceOK (v : Option ViewKey) (id : OpId) (s : MemoryStorage) (seen : Option ℕ) : Prop where
  since : ∀ inner, s.lock v = .ok inner → inner.pendingSince[id]? = seen
  fresh : ∀ k, v = some k → s.sessions < k.session → seen = none

section Run

variable {s s' : MemoryStorage} {v : Option ViewKey} {k : ViewKey} {inner inner' : MemoryInner} {ns : Namespace}

/-- What a write through a handle leaves for that handle. -/
theorem lock_write_self (reserve : ℕ → Result Unit) (w : Write) (h : s.lock v = .ok inner) :
    (s.write E reserve v w).2.lock v = .ok (w.run E reserve (s.quota v) inner).2 := by
  cases v with
  | none =>
    cases h
    rfl
  | some k =>
    obtain ⟨ns, hns, rfl⟩ := lock_some.1 h
    have hw : ∃ n, (s.write E reserve (some k) w).2 = s.release (some k)
        (w.run E reserve (s.quota (some k)) ns.inner).2 n := by
      unfold MemoryStorage.write
      rw [h]
      exact ⟨_, rfl⟩
    obtain ⟨n, hw⟩ := hw
    obtain ⟨ns', hup, hs⟩ := MemoryStorage.release_view _ n hns
    have hread : (s.namespaces.insert (k.source, k.topicId) ns')[(k.source, k.topicId)]? = some ns' :=
      getElem?_insert_self
    rw [hw, hs]
    exact lock_some.2 ⟨ns', MemoryStorage.viewed_eq_some.2
      ⟨hread, hup.session.trans (MemoryStorage.viewed_eq_some.1 hns).2⟩, hup.inner⟩

/-- An operation other than a write through the handle leaves its times, or opens it. -/
theorem StorageStep.lock_kept {ev : StorageEvent} (h : StorageStep E s ev s') (hev : ∀ w, ev.op ≠ .write v w)
    (hlock : s'.lock v = .ok inner') :
    (∃ inner, s.lock v = .ok inner ∧ inner'.pendingSince = inner.pendingSince) ∨
      inner' = {} ∧ ∃ k, v = some k ∧ k.session = s.sessions + 1 := by
  cases v with
  | none =>
    cases hlock
    refine Or.inl ⟨s.inner, rfl, ?_⟩
    cases h with
    | main w => exact absurd rfl (hev w)
    | activated A =>
      rw [A.eq]
      exact movePending_since _ _ _ _
    | _ => rfl
  | some k =>
    obtain ⟨ns', hns', rfl⟩ := lock_some.1 hlock
    obtain ⟨hns', hs⟩ := MemoryStorage.viewed_eq_some.1 hns'
    rcases h.namespace_cases hns' with ⟨ns, inner, hns, hup, hinner⟩ | ⟨hinner, -, hsession, -⟩
    · have hs' := hup.session.symm.trans hs
      refine Or.inl ⟨ns.inner, lock_some.2 ⟨ns, MemoryStorage.viewed_eq_some.2 ⟨hns, hs'⟩, rfl⟩, ?_⟩
      rcases hinner with rfl | ⟨⟨source, topicId, session⟩, w, hop, hkey, hsession, -⟩
      · rw [hup.inner]
      · -- two views of one session are one view
        cases hkey
        cases hsession.symm.trans hs'
        exact absurd hop (hev w)
    · exact Or.inr ⟨hinner, k, rfl, hs.symm.trans hsession⟩

/-- The records a handle locks have a sound index. -/
theorem StorageOK.locked {K : Prop} (H : StorageOK K s) (h : s.lock v = .ok inner) : inner.BufferOK False := by
  refine ⟨?_, False.elim, False.elim⟩
  cases v with
  | none =>
    cases h
    exact H.buffer.ok
  | some k =>
    obtain ⟨ns, hns, rfl⟩ := lock_some.1 h
    exact (H.staged _ _ (MemoryStorage.viewed_eq_some.1 hns).1).ok

/-- A handle that locks records was handed out. -/
theorem StorageOK.handed {K : Prop} (H : StorageOK K s) (h : s.lock (some k) = .ok inner) :
    k.session ≤ s.sessions := by
  obtain ⟨ns, hns, -⟩ := lock_some.1 h
  obtain ⟨hns, hs⟩ := MemoryStorage.viewed_eq_some.1 hns
  exact hs ▸ H.sessions _ _ hns

variable {id : OpId} {seen : Option ℕ}

/-- A sweep sets the times of the ops it leaves buffered. -/
theorem SinceOK.sweep (reserve : ℕ → Result Unit) (H : StorageOK False s) (S : SinceOK v id s seen)
    (now maxIdle : ℕ) :
    SinceOK v id (s.write E reserve v (.expirePending now maxIdle)).2
      (if (s.write E reserve v (.expirePending now maxIdle)).2.buffers v id then some (seen.getD now)
        else none) := by
  cases hl : s.lock v with
  | error e =>
    have hs : (s.write E reserve v (.expirePending now maxIdle)).2 = s := by
      unfold MemoryStorage.write
      rw [hl]
    have hb : s.buffers v id = false := by
      unfold MemoryStorage.buffers
      rw [hl]
    rw [hs, hb]
    refine ⟨fun inner h => ?_, fun _ _ _ => rfl⟩
    rw [hl] at h
    cases h
  | ok inner =>
    obtain ⟨k, p', hp, W⟩ := (H.locked hl).ok.expire_removes now maxIdle
    have hl' : (s.write E reserve v (.expirePending now maxIdle)).2.lock v =
        .ok { inner with toPendingIndex := p' } := by
      rw [lock_write_self reserve _ hl]
      change Except.ok { inner with toPendingIndex := (inner.expirePending now maxIdle).2 } = _
      rw [hp]
    have hb : (s.write E reserve v (.expirePending now maxIdle)).2.buffers v id =
        p'.pendingRecords.contains id := by
      unfold MemoryStorage.buffers
      rw [hl']
    rw [hb]
    refine ⟨fun inner' h => ?_, fun k hk hlt => ?_⟩
    · rw [hl'] at h
      cases h
      rw [← S.since inner hl]
      exact W.since id
    · subst hk
      have hle := (storageStep E s ⟨.write (some k) (.expirePending now maxIdle), reserve⟩).sessions_le
      exact absurd ((H.handed hl).trans hle) (Nat.not_le.2 hlt)

/-- What the watch sees unless a sweep went through the handle. -/
theorem watch_kept {ev : StorageEvent} (h : ∀ now maxIdle, ev.op ≠ .write v (.expirePending now maxIdle)) :
    (watch E v id (s, seen) ev).2 = seen := by
  unfold watch
  dsimp only
  split
  · rename_i v' now maxIdle hop
    have hv : v' ≠ v := by
      rintro rfl
      exact h now maxIdle hop
    rw [if_neg hv]
  · rfl

theorem SinceOK.step (H : StorageOK False s) (S : SinceOK v id s seen) (ev : StorageEvent) :
    SinceOK v id (s.step E ev) (watch E v id (s, seen) ev).2 := by
  have hstep := storageStep E s ev
  by_cases hsweep : ∃ now maxIdle, ev.op = .write v (.expirePending now maxIdle)
  · obtain ⟨now, maxIdle, hop⟩ := hsweep
    obtain ⟨op, reserve⟩ := ev
    subst hop
    have hw : (watch E v id (s, seen) ⟨.write v (.expirePending now maxIdle), reserve⟩).2 = _ := if_pos rfl
    rw [hw]
    exact SinceOK.sweep (E := E) reserve H S now maxIdle
  · have hno : ∀ now maxIdle, ev.op ≠ .write v (.expirePending now maxIdle) :=
      fun now maxIdle h => hsweep ⟨now, maxIdle, h⟩
    rw [watch_kept hno]
    refine ⟨fun inner' hl => ?_, fun k hk hlt => S.fresh k hk (hstep.sessions_le.trans_lt hlt)⟩
    by_cases hwrite : ∃ w, ev.op = .write v w
    · obtain ⟨w, hop⟩ := hwrite
      obtain ⟨op, reserve⟩ := ev
      subst hop
      cases hl₀ : s.lock v with
      | error e =>
        have hs : s.step E ⟨.write v w, reserve⟩ = s := by
          change (s.write E reserve v w).2 = s
          unfold MemoryStorage.write
          rw [hl₀]
        rw [hs, hl₀] at hl
        cases hl
      | ok inner =>
        have h := lock_write_self (E := E) reserve w hl₀
        cases hl.symm.trans h
        rw [(w.run_buffer (H.locked hl₀)).2 (fun now maxIdle h => hno now maxIdle (by rw [h])), S.since inner hl₀]
    · rcases hstep.lock_kept (fun w h => hwrite ⟨w, h⟩) hl with ⟨inner, hl₀, hsince⟩ | ⟨rfl, k, hk, hsession⟩
      · rw [hsince, S.since inner hl₀]
      · -- the handle is new: nothing is timed, and no sweep went through it
        rw [S.fresh k hk (hsession ▸ Nat.lt_succ_self _)]
        rfl

/-- **The times are those of the sweeps.** -/
theorem since_run (limits : StagingLimits) (v : Option ViewKey) (id : OpId) (evs : List StorageEvent) :
    SinceOK v id (MemoryStorage.run E { limits := limits } evs) (firstSeen E limits v id evs) := by
  unfold firstSeen
  induction evs using List.reverseRecOn with
  | nil =>
    refine ⟨fun inner h => ?_, fun _ _ _ => rfl⟩
    cases v with
    | none =>
      cases h
      rfl
    | some k =>
      obtain ⟨ns, hns, -⟩ := lock_some.1 h
      obtain ⟨hns, -⟩ := MemoryStorage.viewed_eq_some.1 hns
      simp [MemoryStorage.run] at hns
  | append_singleton evs ev ih =>
    have H : StorageOK False (MemoryStorage.run E { limits := limits } evs) :=
      (storageOK_empty limits).run evs False.elim
    rw [MemoryStorage.run_snoc, foldl_append]
    have hfst := watch_run (E := E) v id ({ limits := limits }, none) evs
    generalize hst : evs.foldl (watch E v id) ({ limits := limits }, none) = st at ih hfst ⊢
    obtain ⟨s, seen⟩ := st
    dsimp only at hfst ih
    subst hfst
    exact ih.step H ev

end Run

/-- **Removal closes over waiters**, in the active records and in every namespace of every store that a sequence
of operations leads to. A rejection takes the op, if it is buffered, with everything that transitively waits on
it; a purge takes what transitively waits on the op but the op itself; a sweep takes each op that a sweep first
saw buffered more than `maxIdle` ago, with everything that transitively waits on it. No op that is left waits,
directly or through others, on one that went, the op of a purge apart. -/
theorem removal_closes (limits : StagingLimits) (evs : List StorageEvent) (v : Option ViewKey)
    (inner : MemoryInner) (hlock : (MemoryStorage.run E { limits := limits } evs).lock v = .ok inner) :
    (∀ reserve x, (∃ e, inner.rejectPendingSubtree reserve x = (.error e, inner.toPendingIndex)) ∨
      ∃ k p', inner.rejectPendingSubtree reserve x = (.ok k, p') ∧
        Drops inner.toPendingIndex (fun y => x ∈ inner.pendingRecords ∧ (y = x ∨ TransGen inner.Waits x y)) p' ∧
        Closes inner.toPendingIndex p') ∧
    (∀ x, ∃ k p', inner.purgePendingWaiters x = (.ok k, p') ∧
      Drops inner.toPendingIndex (fun y => y ≠ x ∧ TransGen inner.Waits x y) p' ∧
      ∀ z, z ∈ inner.pendingRecords → z ∉ p'.pendingRecords → ∀ y, TransGen p'.Waits z y → y = x) ∧
    ∀ now maxIdle, now < u64Size → ∃ k p', inner.expirePending now maxIdle = (.ok k, p') ∧
      Drops inner.toPendingIndex (fun y => ∃ r, (r ∈ inner.pendingRecords ∧
        ∃ first, firstSeen E limits v r evs = some first ∧ first + maxIdle < now) ∧
          (y = r ∨ TransGen inner.Waits r y)) p' ∧
      Closes inner.toPendingIndex p' := by
  have H : StorageOK False (MemoryStorage.run E { limits := limits } evs) := (storageOK_empty limits).run
    evs False.elim
  have ok := (H.locked hlock).ok
  refine ⟨ok.reject_removes, ok.purge_removes, fun now maxIdle hnow => ?_⟩
  obtain ⟨k, p', hp, W⟩ := ok.expire_removes now maxIdle
  refine ⟨k, p', hp, ?_, W.closes ok⟩
  have hdue : ∀ r, Overdue inner.toPendingIndex now maxIdle r ↔
      ∃ first, firstSeen E limits v r evs = some first ∧ first + maxIdle < now := by
    intro r
    rw [overdue_iff hnow, (since_run limits v r evs).since inner hlock]
  have hdrops := W.takes
  simp only [hdue] at hdrops
  exact hdrops

/-! A buffer with a chain and, since a store does not look into the ids it is given, a cycle. -/

/-- Buffer an op that waits for others. -/
def bufferEvent (n : ℕ) (missing : List ℕ) : StorageEvent where
  op := .write none (.putPendingBound (IdType.ofNat 2) (tableOp n 1 n none missing 1 (.event ⟨"note", []⟩))
    (pendingMetaFor (tableOp n 1 n none missing 1 (.event ⟨"note", []⟩))
      (ExtTreeSet.ofList (missing.map IdType.ofNat) compare)) none)

/-- Two ops that wait for one that never came, two that wait for each other, and a sweep. -/
def chainRun : List StorageEvent :=
  [bufferEvent 2 [1], bufferEvent 3 [2], bufferEvent 5 [6], bufferEvent 6 [5],
    { op := .write none (.expirePending 7 10) }]

/-- The records after the run. -/
def chainInner : MemoryInner := (MemoryStorage.run (Env.ofTable []) {} chainRun).inner

theorem removal_closes_chain : ∃ k p', chainInner.expirePending 18 10 = (.ok k, p') ∧
    Drops chainInner.toPendingIndex (fun y => ∃ r, (r ∈ chainInner.pendingRecords ∧
      ∃ first, firstSeen (Env.ofTable []) .memory none r chainRun = some first ∧ first + 10 < 18) ∧
        (y = r ∨ TransGen chainInner.Waits r y)) p' ∧
    Closes chainInner.toPendingIndex p' :=
  (removal_closes .memory chainRun none chainInner rfl).2.2 18 10 (by decide)

instance (p : PendingIndex) (x y : OpId) : Decidable (p.Waits x y) :=
  inferInstanceAs (Decidable (y ∈ SetMap.get p.pendingWaiters x))

/-- A rejection of an op that is not buffered leaves its waiters, a purge leaves the op itself, and with a cycle
that op still waits on what is gone. -/
theorem removal_leaves : ∃ (one two three five six : OpId),
    TransGen chainInner.Waits one two ∧ chainInner.rejectPendingSubtree (.ok ()) one =
      (.ok 0, chainInner.toPendingIndex) ∧
    two ∈ (chainInner.purgePendingWaiters two).2.pendingRecords ∧
    three ∉ (chainInner.purgePendingWaiters two).2.pendingRecords ∧ six ∈ chainInner.pendingRecords ∧
    six ∉ (chainInner.purgePendingWaiters five).2.pendingRecords ∧
    (chainInner.purgePendingWaiters five).2.Waits six five := by
  refine ⟨IdType.ofNat 1, IdType.ofNat 2, IdType.ofNat 3, IdType.ofNat 5, IdType.ofNat 6, .single ?_, ?_, ?_,
    ?_, ?_, ?_, ?_⟩
  all_goals decide +kernel

end Irokle
