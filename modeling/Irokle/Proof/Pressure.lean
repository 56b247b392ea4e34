import Irokle.Lib.Ledger
import Irokle.Spec.Pressure

/-!
# Storage totals are the sums over live reservations

A reservation remembers what it took, so a drop gives exactly that back, and a grow is granted only inside the
lane's limit and the sampled headroom.

* `Booked.step` — one step of any transaction keeps the sums;
* `writes_accounted` — every run.
-/

namespace Irokle

open Ledger List

variable {w w' : Writes} {p : Pressure} {r : Reservation} {l l' : List Reservation} {domain : StorageDomain}
  {encoded : ℕ} {policy : StoragePressure}

/-- What a reservation holds of each lane. -/
def Reservation.lanes (r : Reservation) (lane : Bool) : ℕ := if lane = r.recovery then r.bytes else 0

/-- What a live reservation is: it charges no domain for more than it holds, within the limit of its lane. -/
structure Reservation.OK (policy : StoragePressure) (r : Reservation) : Prop where
  charged : ∀ d, r.charges d ≤ r.bytes
  limit : r.limit = policy.limit r.recovery
  allowance : r.allowance < u64Size

/-- The totals are the sums over the live reservations, and within their limits. -/
structure Booked (policy : StoragePressure) (w : Writes) : Prop where
  same : w.pressure.policy = policy
  ok : ∀ r ∈ w.live, r.OK policy
  buffers : Balanced w.pressure.buffers (w.live.map Reservation.lanes)
  reserved : Balanced w.pressure.reserved (w.live.map Reservation.charges)
  within : ∀ lane, w.pressure.buffers lane ≤ policy.limit lane
  fits : w.pressure.buffers false + w.pressure.buffers true < u64Size

theorem forall_mid {P : Reservation → Prop} {r' : Reservation} (h : ∀ x ∈ l ++ r :: l', P x) (hr : P r') :
    ∀ x ∈ l ++ r' :: l', P x := by
  simp only [forall_mem_append, forall_mem_cons] at h ⊢
  exact ⟨h.1, hr, h.2.2⟩

/-- A granted grow adds its bytes to the reservation, its lane and one domain; a refused one changes nothing. -/
theorem Booked.grow (A : Booked policy ⟨p, l ++ r :: l'⟩) :
    Booked policy ⟨(r.grow p domain encoded).2.1, l ++ (r.grow p domain encoded).2.2 :: l'⟩ := by
  have hr : r.OK policy := A.ok r (mem_append_right _ mem_cons_self)
  have hallowance := hr.allowance
  have hlanes := A.buffers
  have hdomains := A.reserved
  rw [map_append, map_cons] at hlanes hdomains
  unfold Reservation.grow
  extract_lets d bytes needed now
  split
  · exact A
  split
  · exact A
  split
  · exact A
  split
  · exact A
  rename_i hbuffers hroom
  -- the headroom is a machine number, so the lane's total did not saturate
  have hlane : p.buffers r.recovery ≤ p.buffers false + p.buffers true := by
    cases r.recovery <;> omega
  have hsum : p.buffers r.recovery + bytes ≤ policy.limit r.recovery := by
    rw [← hr.limit]
    unfold saturatingAdd at hbuffers
    omega
  refine ⟨A.same, forall_mid A.ok ⟨fun d' => ?_, hr.limit, hr.allowance⟩, ?_, ?_, fun lane => ?_, ?_⟩
  · have hc := hr.charged d'
    simp only [Function.update_apply]
    split
    · rename_i hd
      subst hd
      omega
    · omega
  · rw [map_append, map_cons]
    refine hlanes.take (funext fun lane => ?_)
    simp only [Reservation.lanes, Function.update_apply, if_true]
    split <;> rfl
  · rw [map_append, map_cons]
    exact hdomains.take rfl
  · simp only [Function.update_apply]
    split
    · rename_i hl
      rwa [hl]
    · exact A.within lane
  · simp only [Function.update_apply]
    cases r.recovery <;> simp <;> omega

theorem Booked.drop (A : Booked policy ⟨p, l ++ r :: l'⟩) : Booked policy ⟨r.drop p, l ++ l'⟩ := by
  have hlanes := A.buffers
  have hdomains := A.reserved
  rw [map_append, map_cons] at hlanes hdomains
  have hbuffers : (r.drop p).buffers = fun lane => p.buffers lane - r.lanes lane := by
    funext lane
    simp only [Reservation.drop, Reservation.lanes, Function.update_apply]
    split
    · rename_i hl
      rw [hl]
    · rfl
  have hle : ∀ lane, (r.drop p).buffers lane ≤ p.buffers lane :=
    fun lane => by rw [hbuffers]; exact Nat.sub_le _ _
  refine ⟨A.same, ?_, ?_, ?_, fun lane => (hle lane).trans (A.within lane),
    Nat.lt_of_le_of_lt (Nat.add_le_add (hle false) (hle true)) A.fits⟩
  · have hok := A.ok
    simp only [forall_mem_append, forall_mem_cons] at hok ⊢
    exact ⟨hok.1, hok.2.2⟩
  · rw [hbuffers, map_append]
    exact hlanes.give
  · rw [map_append]
    exact hdomains.give

/-- **One step of any transaction keeps the sums.** -/
theorem Booked.step (A : Booked policy w) (h : Writes.Step w w') : Booked policy w' := by
  cases h with
  | reserve w recovery disk buffered available ha =>
    refine ⟨A.same, forall_mem_cons.2
      ⟨⟨fun d => Nat.le_refl _, by rw [← A.same]; rfl, Nat.lt_of_le_of_lt (Nat.sub_le _ _) ha⟩, A.ok⟩,
      A.buffers.join fun lane => ?_, A.reserved.join fun _ => rfl, A.within, A.fits⟩
    exact ite_self 0
  | grow p l l' r domain encoded => exact A.grow
  | committed p l l' r =>
    have hr : r.OK policy := A.ok r (mem_append_right _ mem_cons_self)
    have hlanes := A.buffers
    have hdomains := A.reserved
    rw [map_append, map_cons] at hlanes hdomains
    refine ⟨A.same, forall_mid A.ok ⟨hr.charged, hr.limit, hr.allowance⟩, ?_, ?_, A.within, A.fits⟩ <;>
      rw [map_append, map_cons]
    · exact hlanes
    · exact hdomains
  | uncertain => exact ⟨A.same, A.ok, A.buffers, A.reserved, A.within, A.fits⟩
  | drop p l l' r => exact A.drop

theorem booked_of_reaches (h : Writes.Reaches policy w) : Booked policy w := by
  induction h with
  | refl => exact ⟨rfl, by simp, .empty, .empty, fun _ => Nat.zero_le _, Nat.two_pow_pos 64⟩
  | tail _ hstep ih => exact ih.step hstep

/-- `begin` is a run of its parts, whether or not it succeeds. -/
theorem begin_reaches (h : Writes.Reaches policy w) (recovery : Bool) (sample : Except PressureError (ℕ × ℕ))
    {probe : Except PressureError ℕ} (hprobe : ∀ available, probe = .ok available → available < u64Size) :
    Writes.Reaches policy ⟨(w.pressure.begin recovery sample probe).2,
      (w.pressure.begin recovery sample probe).1.toOption.toList ++ w.live⟩ := by
  unfold Pressure.begin
  split
  · exact h
  cases sample with
  | error e => exact h
  | ok sampled =>
    cases probe with
    | error e => exact h
    | ok available =>
      have hopen := h.tail (.reserve w recovery sampled.1 sampled.2 available (hprobe available rfl))
      have hgrow := hopen.tail (.grow _ [] w.live _ .metadata (32 * 1024))
      dsimp only at hgrow ⊢
      generalize (w.pressure.reservation recovery sampled.1 sampled.2 available).grow _ _ _ = g at hgrow ⊢
      obtain ⟨outcome, p', r'⟩ := g
      cases outcome with
      | ok => exact hgrow
      | error e => exact hgrow.tail (.drop p' [] w.live r')

/-- A domain is charged for no more than both lanes hold. -/
theorem charges_le_lanes {live : List Reservation} {d : StorageDomain} (h : ∀ r ∈ live, r.charges d ≤ r.bytes) :
    ((live.map Reservation.charges).map (· d)).sum ≤ ((live.map Reservation.lanes).map (· false)).sum +
      ((live.map Reservation.lanes).map (· true)).sum := by
  induction live with
  | nil => exact Nat.zero_le _
  | cons r live ih =>
    have hr := h r mem_cons_self
    have hrest := ih fun x hx => h x (mem_cons_of_mem _ hx)
    have hbytes : r.lanes false + r.lanes true = r.bytes := by
      unfold Reservation.lanes
      cases r.recovery <;> simp
    simp only [map_cons, sum_cons]
    omega

/-- **Storage reservations add up.** In every run the buffered bytes of a lane and the reserved bytes of a domain
are the sums over the live reservations, within the lane's limit and the machine's range; `begin` is such a run;
a refused grow changes nothing; and every drop takes back no more than is there. -/
theorem writes_accounted (h : Writes.Reaches policy w) :
    Balanced w.pressure.buffers (w.live.map Reservation.lanes) ∧
    Balanced w.pressure.reserved (w.live.map Reservation.charges) ∧
    (∀ lane, w.pressure.buffers lane ≤ policy.limit lane) ∧
    (∀ d, w.pressure.reserved d ≤ w.pressure.buffers false + w.pressure.buffers true) ∧
    w.pressure.buffers false + w.pressure.buffers true < u64Size ∧
    (∀ recovery sample probe, (∀ available, probe = .ok available → available < u64Size) →
      Writes.Reaches policy ⟨(w.pressure.begin recovery sample probe).2,
        (w.pressure.begin recovery sample probe).1.toOption.toList ++ w.live⟩) ∧
    (∀ r ∈ w.live, ∀ domain encoded e, (r.grow w.pressure domain encoded).1 = .error e →
      (r.grow w.pressure domain encoded).2 = (w.pressure, r)) ∧
    ∀ r ∈ w.live, r.bytes ≤ w.pressure.buffers r.recovery ∧ ∀ d, r.charges d ≤ w.pressure.reserved d := by
  have A := booked_of_reaches h
  refine ⟨A.buffers, A.reserved, A.within, fun d => ?_, A.fits, fun recovery sample probe =>
    begin_reaches h recovery sample, fun r _ domain encoded e => ?_,
    fun r hr => ⟨?_, A.reserved.le (mem_map_of_mem hr)⟩⟩
  · rw [A.reserved d, A.buffers false, A.buffers true]
    exact charges_le_lanes fun r hr => (A.ok r hr).charged d
  · unfold Reservation.grow
    extract_lets
    split
    · exact fun _ => rfl
    split
    · exact fun _ => rfl
    split
    · exact fun _ => rfl
    split
    · exact fun _ => rfl
    · intro he
      cases he
  · have hle := A.buffers.le (mem_map_of_mem hr) r.recovery
    rwa [Reservation.lanes, if_pos rfl] at hle

/-- Two transactions of the default policy: both grow, the newer one is refused more, the older one commits
and ends. -/
theorem writes_accounted_two :
    ∃ w, Writes.Reaches {} w ∧ w.live.length = 1 ∧ Balanced w.pressure.buffers (w.live.map Reservation.lanes) ∧
      w.pressure.buffers false = 200 ∧ w.pressure.spent = 100 := by
  have hone := (Relation.ReflTransGen.refl (r := Writes.Step) (a := { pressure := { policy := {} } })).tail
    (.reserve _ false 0 0 (2 ^ 40) (by decide))
  have htwo := hone.tail (.reserve _ false 0 0 (2 ^ 40) (by decide))
  have hgrow := (htwo.tail (.grow _ [] _ _ .metadata 100)).tail (.grow _ [_] [] _ .operations 50)
  have hrefused := hgrow.tail (.grow _ [] _ _ .metadata (2 ^ 40))
  have hdrop := (hrefused.tail (.committed _ [_] [] _)).tail (.drop _ [_] [] _)
  refine ⟨_, hdrop, rfl, (writes_accounted hdrop).1, ?_, ?_⟩
  · decide +kernel
  · decide +kernel

end Irokle
