import Irokle.Spec.Types

/-!
# Cryptography, encoding sizes and resource limits

What the modelled code takes from outside: the digest, the signature scheme, the wire encoding's
sizes, and the answers of the shared memory budget. `Env.Valid` is the check every stored op
passed; ids of valid ops are collision-free (`Env.Valid.eq_of_id`).
-/

namespace Irokle

open Std

/-- A reservation the memory budget refuses, or a commit another writer raced. -/
inductive Fault
  | pressure (domain : MemoryDomain) (required limit : ℕ)
  | conflict
deriving DecidableEq

/-- The error a fault surfaces as. -/
def Fault.error : Fault → Error
  | .pressure domain required limit => .memoryPressure domain required limit
  | .conflict => .admissionConflict

/-- Parameters of the code that other crates and the machine provide. -/
structure Env where
  /-- `Op::derive_id`: the digest of the canonical encoding of a signed op. -/
  deriveId : SignedOp → OpId
  /-- `SignedOp::verify`. -/
  verify : SignedOp → Result Unit
  /-- Verification fails on the encoding, the author's key or the signature. -/
  verify_error : ∀ s e, verify s = .error e →
    (∃ m, e = .encode m) ∨ e = .invalidPublicKey ∨ e = .invalidSignature
  /-- The digest is collision-free on signed ops. -/
  deriveId_inj : ∀ s s', verify s = .ok () → verify s' = .ok () → deriveId s = deriveId s' → s = s'
  /-- `actor_id_for`. -/
  actorIdFor : TopicId → PeerId → ActorId
  /-- The serialized size of an op. -/
  opBytes : Op → ℕ
  /-- The serialized size of a data message that holds no op. -/
  dataOverhead : TopicId → ℕ
  /-- `topic_fingerprint_for`. -/
  topicFingerprintFor : BTreeSet OpId → ActorClock → Digest
  /-- The digest naming an eviction: its topic, both geneses and the evicted ids. -/
  evictionDigest : TopicId → OpId → OpId → List OpId → EvictionKey
  /-- What goes wrong at a point of the `n`-th storage write. -/
  faults : ℕ → ℕ → Option Fault
  /-- Refused workspace holds of a projection at some dependencies during the `n`-th write. -/
  holds : ℕ → BTreeSet OpId → ℕ → Option Fault

variable (E : Env)

/-- Fail with the fault `E` schedules at `point` of write `n`, if any. -/
def Env.reserve (n point : ℕ) : Result Unit :=
  match E.faults n point with
  | some fault => .error fault.error
  | none => .ok ()

/-- `MAX_FRAME_LEN`. -/
def maxFrameLen : ℕ := 16 * 1024 * 1024

/-- `Op::validate_frame`. -/
def Env.validateFrame (op : Op) : Result Unit :=
  if E.dataOverhead op.body.topicId + E.opBytes op > maxFrameLen then .error .opTooLarge else .ok ()

/-- `Op::validate`. -/
def Env.validate (op : Op) : Result Unit :=
  if op.id ≠ E.deriveId op.signed then .error .invalidOpId else E.verify op.signed

/-- The op passes `Op::validate`. -/
def Env.Valid (op : Op) : Prop := E.validate op = .ok ()

variable {E}

theorem Env.valid_iff {op : Op} :
    E.Valid op ↔ op.id = E.deriveId op.signed ∧ E.verify op.signed = .ok () := by
  unfold Env.Valid Env.validate
  split <;> simp_all

/-- An id names at most one valid op. -/
theorem Env.Valid.eq_of_id {op op' : Op} (h : E.Valid op) (h' : E.Valid op') (hid : op.id = op'.id) :
    op = op' := by
  obtain ⟨hd, hv⟩ := Env.valid_iff.1 h
  obtain ⟨hd', hv'⟩ := Env.valid_iff.1 h'
  have hs := E.deriveId_inj _ _ hv hv' (by rw [← hd, ← hd', hid])
  cases op
  cases op'
  simp_all

/-- `is_structural_genesis`: a genesis payload that opens its actor's chain on nothing. -/
def isStructuralGenesis (op : Op) : Bool :=
  match op.body.payload with
  | .genesis _ => op.body.actorSeq == 1 && op.body.actorPrev.isNone && op.body.deps.isEmpty
  | _ => false

/-! ## A scheme over a table

Concrete runs of the model are evaluated in a scheme that verifies exactly the signed ops of a table. -/

/-- The id a table gives a signed op: its signature. -/
def tableId (s : SignedOp) : OpId := IdType.ofNat s.signature.val

/-- The ops of a table whose id no other op of it has verify. -/
def Env.ofTable (table : List SignedOp) : Env where
  deriveId := tableId
  verify s := if s ∈ table ∧ ∀ s' ∈ table, tableId s' = tableId s → s' = s then
    .ok () else .error .invalidSignature
  verify_error s e h := by
    split at h
    · cases h
    · cases h
      exact Or.inr (Or.inr rfl)
  deriveId_inj s s' h h' hid := by
    split at h
    · rename_i hs
      split at h'
      · rename_i hs'
        exact (hs.2 s' hs'.1 hid.symm).symm
      · cases h'
    · cases h
  actorIdFor _ p := ⟨p.bytes⟩
  opBytes _ := 1
  dataOverhead _ := 0
  topicFingerprintFor heads clock :=
    Fin.ofNat _ (heads.toList.foldl (fun n id => 256 * n + id.bytes.val) clock.size)
  evictionDigest _ _ _ _ := IdType.ofNat 0
  faults _ _ := none
  holds _ _ _ := none

/-- An op of a table: id and signature `n`, by the author numbered `author`. -/
def tableOp (n author seq : ℕ) (prev : Option ℕ) (deps : List ℕ) (generation : ℕ)
    (payload : TopicPayload) : Op where
  id := IdType.ofNat n
  signed :=
    { body :=
        { topicId := IdType.ofNat 1, author := IdType.ofNat author, actorId := IdType.ofNat author
          actorSeq := seq, actorPrev := prev.map IdType.ofNat
          deps := ExtTreeSet.ofList (deps.map IdType.ofNat) compare, generation := generation
          payload := payload }
      signature := Fin.ofNat _ n }

/-- `TopicEviction::key`. -/
def Env.evictionKey (E : Env) (e : TopicEviction) : EvictionKey :=
  E.evictionDigest e.topicId e.losingGenesis e.winningGenesis (e.evicted.map (·.opId))

end Irokle
