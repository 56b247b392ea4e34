import Irokle.Spec.Ids

/-!
# Reservations before storage writes

The shared totals of `src/storage/pressure.rs` and the transactions that reserve from them. `begin` reads the
policy, samples the backend and reserves under three separate locks, so a run takes it apart: the reservation is
made, and grows later like any other.
-/

namespace Irokle

/-- `StorageDomain`. -/
inductive StorageDomain
  | operations | metadata | clockNodes | activation | recovery
deriving DecidableEq

/-- The errors of `begin` and `grow`. -/
inductive PressureError
  | storagePressure (text : String)
  | storageBuffer (required limit : ℕ)
  | reopenRequired
  | storage
  | storageProbe

/-- `StoragePressure`. -/
structure StoragePressure where
  minimumFreeBytes : ℕ := 64 * 1024 * 1024
  recoveryFreeBytes : ℕ := 1024 * 1024
  bufferBytes : ℕ := 512 * 1024 * 1024
  recoveryBufferBytes : ℕ := 128 * 1024 * 1024

/-- What the buffers of a lane may hold. -/
def StoragePressure.limit (policy : StoragePressure) (recovery : Bool) : ℕ :=
  if recovery then policy.recoveryBufferBytes else policy.bufferBytes

/-- `State`, with the part of `StorageUsage` that reservations change. -/
structure Pressure where
  policy : StoragePressure := {}
  reserved : StorageDomain → ℕ := fun _ => 0
  peakReserved : StorageDomain → ℕ := fun _ => 0
  committedBytes : StorageDomain → ℕ := fun _ => 0
  filesystemAvailable : ℕ := 0
  requiresReopen : Bool := false
  buffers : Bool → ℕ := fun _ => 0
  spent : ℕ := 0

/-- `Reservation`. -/
structure Reservation where
  allowance : ℕ
  stamp : ℕ
  limit : ℕ
  recovery : Bool
  charges : StorageDomain → ℕ := fun _ => 0
  bytes : ℕ := 0
  committed : Bool := false

namespace Reservation

/-- `Reservation::grow`. -/
def grow (r : Reservation) (p : Pressure) (domain : StorageDomain)
    (encoded : ℕ) : Except PressureError Unit × Pressure × Reservation :=
  let domain := if r.recovery then .recovery else domain
  let bytes := encoded * 2
  let needed := r.bytes + bytes
  if u64Size ≤ bytes ∨ u64Size ≤ needed then (.error (.storagePressure "storage reservation overflow"), p, r)
  else if r.limit < needed then (.error (.storageBuffer needed r.limit), p, r)
  else if r.limit < saturatingAdd (p.buffers r.recovery) bytes then
    (.error (.storagePressure "storage transaction buffers are occupied"), p, r)
  else if r.allowance < p.buffers false + p.buffers true + bytes + (p.spent - r.stamp) then
    (.error (.storagePressure "filesystem recovery headroom is reserved"), p, r)
  else
    let now := p.reserved domain + bytes
    (.ok (),
      { p with
        buffers := Function.update p.buffers r.recovery (p.buffers r.recovery + bytes)
        reserved := Function.update p.reserved domain now
        peakReserved := Function.update p.peakReserved domain (max (p.peakReserved domain) now) },
      { r with charges := Function.update r.charges domain (r.charges domain + bytes), bytes := needed })

/-- The drop of a reservation. -/
def drop (r : Reservation) (p : Pressure) : Pressure :=
  { p with
    buffers := Function.update p.buffers r.recovery (p.buffers r.recovery - r.bytes)
    reserved := fun d => p.reserved d - r.charges d
    committedBytes := fun d => if r.committed then (p.committedBytes d + r.charges d / 2) % u64Size
      else p.committedBytes d
    spent := if r.committed then p.spent + r.bytes else p.spent }

end Reservation

namespace Pressure

/-- The reservation that `begin` makes before it grows. -/
def reservation (p : Pressure) (recovery : Bool) (disk buffered available : ℕ) : Reservation :=
  let margin := if recovery then p.policy.recoveryFreeBytes
    else saturatingAdd (saturatingAdd p.policy.minimumFreeBytes disk) buffered
  { allowance := available - margin, stamp := p.spent, limit := p.policy.limit recovery, recovery := recovery }

/-- `begin`, given what the backend and the filesystem answer. A reservation that cannot grow is dropped. -/
def begin (p : Pressure) (recovery : Bool) (sample : Except PressureError (ℕ × ℕ))
    (probe : Except PressureError ℕ) :
    Except PressureError Reservation × Pressure :=
  if p.requiresReopen then (.error .reopenRequired, p)
  else
    match sample, probe with
    | .error e, _ => (.error e, p)
    | .ok _, .error e => (.error e, p)
    | .ok (disk, buffered), .ok available =>
      let r := p.reservation recovery disk buffered available
      match r.grow { p with filesystemAvailable := available } .metadata (32 * 1024) with
      | (.ok (), p, r) => (.ok r, p)
      | (.error e, p, r) => (.error e, r.drop p)

end Pressure

/-! ## Transactions -/

/-- The shared totals and the reservations that are not dropped. -/
structure Writes where
  pressure : Pressure := {}
  live : List Reservation := []

/-- What a transaction does, between any steps of the others. -/
inductive Writes.Step : Writes → Writes → Prop
  | reserve (w : Writes) (recovery : Bool) (disk buffered available : ℕ) (ha : available < u64Size) :
      Step w ⟨{ w.pressure with filesystemAvailable := available },
        w.pressure.reservation recovery disk buffered available :: w.live⟩
  | grow (p : Pressure) (l l' : List Reservation) (r : Reservation) (domain : StorageDomain) (encoded : ℕ) :
      Step ⟨p, l ++ r :: l'⟩ ⟨(r.grow p domain encoded).2.1, l ++ (r.grow p domain encoded).2.2 :: l'⟩
  | committed (p : Pressure) (l l' : List Reservation) (r : Reservation) :
      Step ⟨p, l ++ r :: l'⟩ ⟨p, l ++ { r with committed := true } :: l'⟩
  | uncertain (w : Writes) : Step w { w with pressure := { w.pressure with requiresReopen := true } }
  | drop (p : Pressure) (l l' : List Reservation) (r : Reservation) : Step ⟨p, l ++ r :: l'⟩ ⟨r.drop p, l ++ l'⟩

/-- What the transactions reach from a fresh state under a policy. -/
def Writes.Reaches (policy : StoragePressure) : Writes → Prop :=
  Relation.ReflTransGen Writes.Step { pressure := { policy := policy } }

end Irokle
