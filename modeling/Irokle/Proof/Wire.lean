import Irokle.Lib.Outcome
import Irokle.Lib.Packing
import Irokle.Spec.Wire

/-!
# Wire pages are exact

`sync_data_page` never encodes a message to find where to cut: it adds up lengths, with a length prefix
that grows with the number of operations. `frameLen` is the length of the frame that the encoder really
writes, and `joins` the greedy rule in those terms; the loop then is the greedy packing of
`Irokle.Packing`, stopped before the first operation with which the packing no longer fits.

* `pageLoop_spec` — the loop invariant, over any number of operations;
* `decodeSyncMessage_encode`, `decodeFrame_encodeFrame` — what a page holds is read back;
* `syncDataPage_exact` — the messages, bytes and cut of a page.
-/

namespace Irokle

open Std Postcard Outcome Packing List

/-- The operations of a message. -/
def SyncMessage.ops : SyncMessage → List Op
  | .data d => d.ops
  | .other _ _ => []

namespace WireCodec

variable (codec : WireCodec)

/-- The encoded length of some operations. -/
def opsLen (ops : List Op) : ℕ := (ops.map fun op => (codec.put op).length).sum

/-- The length of the frame of a data message. -/
def frameLen (ops : List Op) : ℕ := 4 + codec.serializedSize (.data ⟨IdType.ofNat 0, ops⟩)

/-- The operation may join the open message. -/
def joins (ops : List Op) (op : Op) : Bool :=
  decide (ops.length < maxSyncDataOpsPerMessage ∧ codec.frameLen (ops ++ [op]) ≤ maxFrameLen + 4)

/-- The groups of operations are within the limits of a page; `usize::MAX` is no limit. -/
def Within (maxMessages maxBytes : ℕ) (gs : List (List Op)) : Prop :=
  gs.length ≤ maxMessages ∧ (maxBytes = usizeSize - 1 ∨ (gs.map codec.frameLen).sum ≤ maxBytes)

variable {codec} {t : TopicId} {op : Op} {ops done g : List Op} {maxMessages maxBytes : ℕ}

/-! ## Lengths -/

theorem length_putVarint_mono {m n : ℕ} (h : m ≤ n) (limbs : ℕ) :
    (putVarint limbs m).length ≤ (putVarint limbs n).length := by
  induction limbs generalizing m n with
  | zero => exact le_rfl
  | succ limbs ih =>
    rw [putVarint, putVarint]
    by_cases hn : n < 128
    · rw [if_pos hn, if_pos (by omega)]
      exact le_rfl
    · rw [if_neg hn]
      split
      · simp
      · simpa using ih (Nat.div_le_div_right h)

theorem countLen_succ (n : ℕ) : countLen n ≤ countLen (n + 1) := length_putVarint_mono (Nat.le_succ n) 10

theorem serializedSize_data (t : TopicId) (ops : List Op) :
    codec.serializedSize (.data ⟨t, ops⟩) = 33 + countLen ops.length + codec.opsLen ops := by
  have htag : (putU32 dataTag).length = 1 := by decide
  unfold serializedSize encodeSyncMessage opsLen countLen
  rw [length_append, length_append, length_append, htag, length_putArray, length_flatMap]

theorem frameLen_eq (ops : List Op) : codec.frameLen ops = 37 + countLen ops.length + codec.opsLen ops := by
  rw [frameLen, serializedSize_data]
  omega

@[simp] theorem opsLen_nil : codec.opsLen [] = 0 := rfl

@[simp] theorem opsLen_snoc (ops : List Op) (op : Op) :
    codec.opsLen (ops ++ [op]) = codec.opsLen ops + (codec.put op).length := by
  simp [opsLen]

theorem countLen_zero : countLen 0 = 1 := by decide

theorem countLen_one : countLen 1 = 1 := by decide

/-- The constant part of a page's frames. -/
theorem framedMessageLen_empty (t : TopicId) : codec.framedMessageLen (.data ⟨t, []⟩) = .ok 38 := by
  unfold framedMessageLen
  rw [serializedSize_data, length_nil, countLen_zero, opsLen_nil, if_neg (by decide)]

theorem frameLen_mono (g : List Op) (op : Op) : codec.frameLen g ≤ codec.frameLen (g ++ [op]) := by
  have := countLen_succ g.length
  rw [frameLen_eq, frameLen_eq, opsLen_snoc, length_append, length_singleton]
  omega

/-- A validated operation fits a frame of its own. -/
theorem validateOp_eq_ok : codec.validateOp op = .ok () ↔ codec.frameLen [op] ≤ maxFrameLen + 4 := by
  unfold validateOp
  rw [serializedSize_data, frameLen_eq, length_nil, opsLen_nil, countLen_zero, length_singleton, countLen_one]
  have hone : codec.opsLen [op] = (codec.put op).length := by simp [opsLen]
  rw [hone]
  split
  · rename_i h
    simp
    omega
  · rename_i h
    simp
    omega

/-- Fewer operations stay within the limits. -/
theorem Within.of_prefix {l l' : List Op} (h : codec.Within maxMessages maxBytes (pack codec.joins l'))
    (hp : l <+: l') :
    codec.Within maxMessages maxBytes (pack codec.joins l) :=
  ⟨(length_pack_mono hp).trans h.1, h.2.imp id (sum_pack_mono frameLen_mono hp).trans⟩

/-! ## The loop -/

/-- What the loop keeps once it took the operations `done`. -/
structure PageInv (codec : WireCodec) (t : TopicId) (maxMessages maxBytes : ℕ) (done : List Op)
    (s : Page) : Prop where
  messages : s.messages = (packed codec.joins done).1.map fun g => .data ⟨t, g⟩
  current : s.current = (packed codec.joins done).2
  currentLen : s.currentLen = codec.opsLen s.current
  closedBytes : s.closedBytes = ((packed codec.joins done).1.map codec.frameLen).sum % usizeSize
  within : codec.Within maxMessages maxBytes (pack codec.joins done)
  small : ∀ op ∈ done, codec.frameLen [op] ≤ maxFrameLen + 4

theorem pageInv_nil : PageInv codec t maxMessages maxBytes [] {} :=
  ⟨rfl, rfl, rfl, rfl, ⟨Nat.zero_le _, Or.inr (Nat.zero_le _)⟩, by simp⟩

/-- A total within the limit is not wrapped. -/
theorem PageInv.exact {s : Page} (I : PageInv codec t maxMessages maxBytes done s)
    (hmax : maxBytes < usizeSize - 1) :
    s.closedBytes = ((packed codec.joins done).1.map codec.frameLen).sum := by
  have hsum : ((packed codec.joins done).1.map codec.frameLen).sum ≤
      ((pack codec.joins done).map codec.frameLen).sum := by
    unfold pack close
    split <;> simp
  have hle := I.within.2.resolve_left hmax.ne
  rw [I.closedBytes, Nat.mod_eq_of_lt]
  omega

/-- The comparison with the limits is exact, whether or not the additions saturate. -/
theorem refused_iff {gs : List (List Op)} {count bytes : ℕ} (hmax : maxBytes < usizeSize)
    (hcount : count = gs.length) (hbytes : maxBytes < usizeSize - 1 → bytes = min (gs.map codec.frameLen).sum
      (usizeSize - 1)) (hsat : bytes ≤ usizeSize - 1) :
    (count > maxMessages ∨ bytes > maxBytes) ↔ ¬ codec.Within maxMessages maxBytes gs := by
  unfold Within
  subst hcount
  by_cases hlim : maxBytes = usizeSize - 1
  · have : ¬ bytes > maxBytes := by omega
    simp [hlim]
    omega
  · have hb := hbytes (by omega)
    simp only [hlim, false_or]
    omega

theorem satAdd_satAdd (a b c : ℕ) : satAdd (satAdd a b) c = min (a + b + c) (usizeSize - 1) := by
  unfold satAdd
  generalize usizeSize - 1 = m
  omega

/-- The plan of an operation is that of the packing, and taking it keeps the invariant while the packing fits. -/
theorem PageInv.take {s : Page} (hmax : maxBytes < usizeSize) (I : PageInv codec t maxMessages maxBytes done s)
    (hsmall : codec.frameLen [op] ≤ maxFrameLen + 4) :
    ((codec.plan 37 s op).2.1 > maxMessages ∨ (codec.plan 37 s op).2.2 > maxBytes ↔
      ¬ codec.Within maxMessages maxBytes (pack codec.joins (done ++ [op]))) ∧
    (codec.Within maxMessages maxBytes (pack codec.joins (done ++ [op])) →
      PageInv codec t maxMessages maxBytes (done ++ [op]) (codec.takeOp t 37 s op (codec.plan 37 s op).1)) := by
  have hone : 37 + countLen 1 + (codec.put op).length = codec.frameLen [op] := by simp [frameLen_eq, opsLen]
  have hjoined : 37 + countLen (s.current.length + 1) + s.currentLen + (codec.put op).length = codec.frameLen
      (s.current ++ [op]) := by
    rw [frameLen_eq, opsLen_snoc, I.currentLen, length_append, length_singleton]
    omega
  have hopen : s.current ≠ [] → openBytes 37 s = codec.frameLen s.current := by
    intro hne
    rw [openBytes, if_neg hne, frameLen_eq, I.currentLen]
  have hsmalls : ∀ op' ∈ done ++ [op], codec.frameLen [op'] ≤ maxFrameLen + 4 := by
    intro op' hop'
    rcases mem_append.1 hop' with h | h
    · exact I.small op' h
    · rw [mem_singleton.1 h]
      exact hsmall
  have hpacked := packed_snoc codec.joins done op
  by_cases hjoin : s.current ≠ [] ∧ codec.joins s.current op
  · -- the operation joins the open message
    have hplan : codec.plan 37 s op =
        (true, s.messages.length + 1, satAdd s.closedBytes (codec.frameLen (s.current ++ [op]))) := by
      unfold plan
      dsimp only
      rw [hjoined, if_pos (by simpa [joins] using hjoin)]
    have hput : Packing.put codec.joins (packed codec.joins done) op =
        ((packed codec.joins done).1, s.current ++ [op]) := by
      rw [Packing.put, ← I.current, if_pos hjoin]
    have hpack : pack codec.joins (done ++ [op]) = (packed codec.joins done).1 ++ [s.current ++ [op]] := by
      rw [pack, hpacked, hput, close_of_ne_nil (by simp)]
    rw [hplan]
    refine ⟨refused_iff hmax (by simp [hpack, I.messages]) (fun hlim => ?_) (Nat.min_le_right _ _),
      fun hwithin => ?_⟩
    · simp [satAdd, I.exact hlim, hpack]
    · have htake : codec.takeOp t 37 s op true =
          { s with currentLen := s.currentLen + (codec.put op).length, current := s.current ++ [op] } := by
            simp [takeOp]
      rw [htake]
      refine ⟨?_, ?_, ?_, ?_, hwithin, hsmalls⟩
      · rw [hpacked, hput]
        exact I.messages
      · rw [hpacked, hput]
      · simp [I.currentLen]
      · rw [hpacked, hput]
        exact I.closedBytes
  · -- the operation opens a message of its own
    have hplan : codec.plan 37 s op = (false, s.messages.length + (if s.current = [] then 0 else 1) + 1,
        satAdd (satAdd s.closedBytes (openBytes 37 s)) (codec.frameLen [op])) := by
      unfold plan
      dsimp only
      rw [hjoined, hone, if_neg (by simpa [joins] using hjoin)]
    have hput : Packing.put codec.joins (packed codec.joins done) op = (pack codec.joins done, [op]) := by
      rw [Packing.put, ← I.current, if_neg hjoin]
      rfl
    have hpack : pack codec.joins (done ++ [op]) = pack codec.joins done ++ [[op]] := by
      rw [pack, hpacked, hput, close_of_ne_nil (by simp)]
    rw [hplan]
    by_cases hne : s.current = []
    · have hclose : pack codec.joins done = (packed codec.joins done).1 := by
        rw [pack, close, if_pos (I.current ▸ hne)]
      refine ⟨refused_iff hmax (by simp [hpack, hclose, hne, I.messages]) (fun hlim => ?_) (Nat.min_le_right _ _),
        fun hwithin => ?_⟩
      · simp [satAdd_satAdd, openBytes, hne, I.exact hlim, hpack, hclose]
      · have htake : codec.takeOp t 37 s op false =
            { s with currentLen := s.currentLen + (codec.put op).length, current := s.current ++ [op] } := by
              simp [takeOp, hne]
        rw [htake]
        refine ⟨?_, ?_, ?_, ?_, hwithin, hsmalls⟩
        · rw [hpacked, hput, hclose]
          exact I.messages
        · rw [hpacked, hput, hne]
          rfl
        · simp [I.currentLen]
        · rw [hpacked, hput, hclose]
          exact I.closedBytes
    · have hclose : pack codec.joins done = (packed codec.joins done).1 ++ [s.current] := by
        rw [pack, close_of_ne_nil (I.current ▸ hne), ← I.current]
      refine ⟨refused_iff hmax (by simp [hpack, hclose, hne, I.messages]) (fun hlim => ?_) (Nat.min_le_right _ _),
        fun hwithin => ?_⟩
      · simp [satAdd_satAdd, hopen hne, I.exact hlim, hpack, hclose, Nat.add_assoc]
      · have htake : codec.takeOp t 37 s op false =
            { s with
              closedBytes := (s.closedBytes + codec.frameLen s.current) % usizeSize
              messages := s.messages ++ [.data ⟨t, s.current⟩]
              currentLen := (codec.put op).length
              current := [op] } := by simp [takeOp, hne, hopen hne]
        rw [htake]
        refine ⟨?_, ?_, ?_, ?_, hwithin, hsmalls⟩
        · rw [hpacked, hput, hclose]
          simp [I.messages]
        · rw [hpacked, hput]
        · simp [opsLen]
        · rw [hpacked, hput, hclose]
          simp [I.closedBytes]

/-- **The loop takes the longest run of operations whose packing fits**, or meets one that no frame holds. -/
theorem pageLoop_spec {s : Page} (hmax : maxBytes < usizeSize) (I : PageInv codec t maxMessages maxBytes done s)
    (hcut : s.cut = false) :
    Post (codec.pageLoop t 37 maxMessages maxBytes ops s)
      (fun s' => ∃ k ≤ ops.length, PageInv codec t maxMessages maxBytes (done ++ ops.take k) s' ∧
        s'.cut = decide (k < ops.length) ∧
        (k < ops.length → ¬ codec.Within maxMessages maxBytes (pack codec.joins (done ++ ops.take (k + 1)))))
      fun _ => ∃ op ∈ ops, ¬ codec.frameLen [op] ≤ maxFrameLen + 4 := by
  induction ops generalizing done s with
  | nil => exact Post.ok ⟨0, le_rfl, by simpa using I, by simpa using hcut, by simp⟩
  | cons op ops ih =>
    have hone : 37 + countLen 1 + (codec.put op).length = codec.frameLen [op] := by simp [frameLen_eq, opsLen]
    unfold pageLoop
    rw [hone]
    split
    · rename_i hlarge
      exact Post.error ⟨op, mem_cons_self, Nat.not_le.2 hlarge⟩
    · rename_i hsmall
      obtain ⟨hrefused, hkept⟩ := I.take hmax (Nat.not_lt.1 hsmall)
      dsimp only
      split
      · rename_i hno
        refine Post.ok ⟨0, Nat.zero_le _, ?_, by simp, fun _ => ?_⟩
        · simpa using ⟨I.messages, I.current, I.currentLen, I.closedBytes, I.within, I.small⟩
        · simpa using hrefused.1 hno
      · rename_i hyes
        have hwithin : codec.Within maxMessages maxBytes (pack codec.joins (done ++ [op])) := by
          by_contra h
          exact hyes (hrefused.2 h)
        have hcut' : (codec.takeOp t 37 s op (codec.plan 37 s op).1).cut = false := by
          unfold takeOp
          dsimp only
          split <;> exact hcut
        refine (ih (hkept hwithin) hcut').mono ?_ ?_
        · rintro s' ⟨k, hk, I', hc, hlong⟩
          refine ⟨k + 1, Nat.succ_le_succ hk, ?_, ?_, fun hlt => ?_⟩
          · simpa using I'
          · simpa using hc
          · simpa using hlong (by simpa using hlt)
        · rintro e ⟨op', hop', hlarge⟩
          exact ⟨op', mem_cons_of_mem _ hop', hlarge⟩

/-! ## Frames -/

theorem fromBeBytes_toBeBytes {n : ℕ} (h : n < 2 ^ 32) : fromBeBytes (toBeBytes n) = n := by
  simp only [fromBeBytes, toBeBytes, foldl_cons, foldl_nil, UInt8.toNat_ofNat']
  omega

@[simp] theorem length_toBeBytes (n : ℕ) : (toBeBytes n).length = 4 := rfl

/-- **A frame is read back**, whatever follows. -/
theorem decodeFrame_encodeFrame {payload frame : Bytes} (h : encodeFrame payload = .ok frame) (rest : Bytes) :
    decodeFrame (frame ++ rest) = .ok (some (payload, frame.length)) := by
  unfold encodeFrame at h
  split at h
  · cases h
  · rename_i hlen
    cases h
    have hbe : fromBeBytes ((toBeBytes payload.length ++ payload ++ rest).take 4) = payload.length := by
      rw [append_assoc, take_left' (length_toBeBytes _)]
      exact fromBeBytes_toBeBytes (Nat.lt_of_le_of_lt (Nat.not_lt.1 hlen) (by decide))
    have hpayload : ((toBeBytes payload.length ++ payload ++ rest).take (4 + payload.length)).drop 4 =
        payload := by
      rw [take_left' (by simp), drop_left' (length_toBeBytes _)]
    unfold decodeFrame
    rw [if_neg (by simp), hbe]
    dsimp only
    rw [if_neg hlen, if_neg (by simp), hpayload, length_append, length_toBeBytes]

/-- The codec reads an operation back. -/
def ReadsBack (codec : WireCodec) (op : Op) : Prop := ∀ rest, codec.take (codec.put op ++ rest) = some (op, rest)

theorem takeOps_put (h : ∀ op ∈ ops, codec.ReadsBack op) (rest : Bytes) :
    codec.takeOps ops.length (ops.flatMap codec.put ++ rest) = some (ops, rest) := by
  induction ops with
  | nil => rfl
  | cons op ops ih =>
    rw [flatMap_cons, append_assoc, length_cons, takeOps, h op mem_cons_self]
    simp [ih fun op' hop' => h op' (mem_cons_of_mem _ hop')]

/-- **A data message is read back.** -/
theorem decodeSyncMessage_encode (h : ∀ op ∈ ops, codec.ReadsBack op)
    (hlen : ops.length ≤ maxSyncDataOpsPerMessage) :
    codec.decodeSyncMessage (codec.encodeSyncMessage (.data ⟨t, ops⟩)) = .ok (.data ⟨t, ops⟩) := by
  have hcount : ops.length < 2 ^ 64 := Nat.lt_of_le_of_lt hlen (by decide)
  have hmessage : codec.takeMessage (codec.encodeSyncMessage (.data ⟨t, ops⟩)) = some (.data ⟨t, ops⟩, []) := by
    unfold takeMessage encodeSyncMessage
    dsimp only
    rw [append_assoc, append_assoc, takeU32_putU32 (by decide)]
    have hops := takeOps_put h []
    rw [append_nil] at hops
    simp [takeU64_putU64 hcount, hops]
  unfold decodeSyncMessage
  rw [hmessage]
  simp only [ne_eq, not_true_eq_false, if_false]
  rw [if_neg (Nat.not_lt.2 hlen)]

/-! ## Pages -/

/-- A data message of the topic that a peer accepts: it holds operations, within the limits of a message, and its
frame is read back. -/
structure Framed (codec : WireCodec) (t : TopicId) (m : SyncMessage) : Prop where
  eq : m = .data ⟨t, m.ops⟩
  ne_nil : m.ops ≠ []
  count_le : m.ops.length ≤ maxSyncDataOpsPerMessage
  frame : ∃ frame, encodeFrame (codec.encodeSyncMessage m) = .ok frame ∧
    frame.length = 4 + codec.serializedSize m ∧ frame.length ≤ maxFrameLen + 4 ∧
    decodeFrame frame = .ok (some (codec.encodeSyncMessage m, frame.length))
  decodes : (∀ op ∈ m.ops, codec.ReadsBack op) → codec.decodeSyncMessage (codec.encodeSyncMessage m) = .ok m

/-- The page holds exactly the first `k` operations. -/
structure ExactPage (codec : WireCodec) (t : TopicId) (ops : List Op) (maxMessages maxBytes k : ℕ)
    (page : DataPage) : Prop where
  ops_eq : page.messages.flatMap SyncMessage.ops = ops.take k
  framed : ∀ m ∈ page.messages, Framed codec t m
  bytes_mod : page.bytes = (page.messages.map fun m => 4 + codec.serializedSize m).sum % usizeSize
  bytes_eq : maxBytes < usizeSize - 1 → page.bytes = (page.messages.map fun m => 4 + codec.serializedSize m).sum
  bytes_le : page.bytes ≤ maxBytes
  count_le : page.messages.length ≤ maxMessages
  greedy : page.messages = (pack codec.joins (ops.take k)).map fun g => .data ⟨t, g⟩
  longest : ∀ j ≤ ops.length, codec.Within maxMessages maxBytes (pack codec.joins (ops.take j)) ↔ j ≤ k
  cut : page.cut = decide (k < ops.length)

theorem framed_group (hne : g ≠ []) (hlen : g.length ≤ maxSyncDataOpsPerMessage)
    (hframe : codec.frameLen g ≤ maxFrameLen + 4) :
    Framed codec t (.data ⟨t, g⟩) := by
  have hsize : codec.serializedSize (.data ⟨t, g⟩) + 4 = codec.frameLen g := by
    rw [serializedSize_data, frameLen_eq]
    omega
  have hle : ¬ (codec.encodeSyncMessage (.data ⟨t, g⟩)).length > maxFrameLen := by
    have : (codec.encodeSyncMessage (.data ⟨t, g⟩)).length = codec.serializedSize (.data ⟨t, g⟩) := rfl
    omega
  refine ⟨rfl, hne, hlen, ?_, fun h => decodeSyncMessage_encode h hlen⟩
  have hencode : encodeFrame (codec.encodeSyncMessage (.data ⟨t, g⟩)) = .ok _ := if_neg hle
  refine ⟨_, hencode, ?_, ?_, ?_⟩
  · rw [length_append, length_toBeBytes]
    rfl
  · have hlen' : (toBeBytes (codec.encodeSyncMessage (.data ⟨t, g⟩)).length ++ codec.encodeSyncMessage
      (.data ⟨t, g⟩)).length =
        4 + codec.serializedSize (.data ⟨t, g⟩) := by
      rw [length_append, length_toBeBytes]
      rfl
    omega
  · have hdecode := decodeFrame_encodeFrame hencode []
    rwa [append_nil] at hdecode

theorem joins_iff : codec.joins g op = true ↔ g.length < maxSyncDataOpsPerMessage ∧
    codec.frameLen (g ++ [op]) ≤ maxFrameLen + 4 := by
  simp [joins]

/-- Every message of a page is accepted. -/
theorem PageInv.framed {s : Page} (I : PageInv codec t maxMessages maxBytes done s) :
    ∀ g ∈ pack codec.joins done, Framed codec t (.data ⟨t, g⟩) := by
  intro g hg
  have hP : ∀ g ∈ pack codec.joins done, g.length ≤ maxSyncDataOpsPerMessage ∧
      codec.frameLen g ≤ maxFrameLen + 4 := by
    refine pack_forall (fun op hop => ⟨by simp [maxSyncDataOpsPerMessage], I.small op hop⟩) fun g op _ _ hj => ?_
    obtain ⟨hlt, hle⟩ := joins_iff.1 hj
    exact ⟨by simpa using hlt, hle⟩
  exact framed_group (ne_nil_of_mem_pack hg) (hP g hg).1 (hP g hg).2

/-- The last steps of `sync_data_page`: the open message is closed. -/
theorem PageInv.closes {s : Page} (I : PageInv codec t maxMessages maxBytes done s) :
    (if s.current = [] then (⟨s.messages, s.closedBytes, s.cut⟩ : DataPage)
      else ⟨s.messages ++ [.data ⟨t, s.current⟩], (s.closedBytes + openBytes 37 s) % usizeSize, s.cut⟩) =
    ⟨(pack codec.joins done).map fun g => .data ⟨t, g⟩,
      ((pack codec.joins done).map codec.frameLen).sum % usizeSize, s.cut⟩ := by
  split
  · rename_i hnil
    rw [pack, close, if_pos (I.current ▸ hnil), I.messages, I.closedBytes]
  · rename_i hne
    have hopen : openBytes 37 s = codec.frameLen s.current := by
      rw [openBytes, if_neg hne, frameLen_eq, I.currentLen]
    rw [pack, close_of_ne_nil (I.current ▸ hne), ← I.current, hopen]
    simp [I.messages, I.closedBytes]

theorem PageInv.exactPage {s : Page} {k : ℕ} (hmax : maxBytes < usizeSize)
    (I : PageInv codec t maxMessages maxBytes (ops.take k) s) (hk : k ≤ ops.length)
    (hcut : s.cut = decide (k < ops.length))
    (hlong : k < ops.length → ¬ codec.Within maxMessages maxBytes (pack codec.joins (ops.take (k + 1)))) :
    ExactPage codec t ops maxMessages maxBytes k
      ⟨(pack codec.joins (ops.take k)).map fun g => .data ⟨t, g⟩,
        ((pack codec.joins (ops.take k)).map codec.frameLen).sum % usizeSize, s.cut⟩ := by
  have hlens : (((pack codec.joins (ops.take k)).map fun g => SyncMessage.data ⟨t, g⟩).map fun m => 4 +
    codec.serializedSize m) =
      (pack codec.joins (ops.take k)).map codec.frameLen := by
    rw [map_map]
    refine map_congr_left fun g _ => ?_
    simp only [Function.comp_apply, serializedSize_data, frameLen_eq]
    omega
  have hexact : maxBytes < usizeSize - 1 → ((pack codec.joins (ops.take k)).map codec.frameLen).sum ≤ maxBytes :=
    fun hlim => I.within.2.resolve_left hlim.ne
  refine ⟨?_, ?_, ?_, fun hlim => ?_, ?_, by simpa using I.within.1, rfl, fun j hj => ?_, hcut⟩
  · rw [flatMap_map]
    change (pack codec.joins (ops.take k)).flatMap id = _
    rw [flatMap_id, flatten_pack]
  · intro m hm
    obtain ⟨g, hg, rfl⟩ := mem_map.1 hm
    exact I.framed g hg
  · rw [hlens]
  · rw [hlens]
    exact Nat.mod_eq_of_lt (Nat.lt_of_le_of_lt (hexact hlim) hmax)
  · by_cases hlim : maxBytes < usizeSize - 1
    · exact (Nat.mod_le _ _).trans (hexact hlim)
    · have := Nat.mod_lt ((pack codec.joins (ops.take k)).map codec.frameLen).sum (show 0 < usizeSize by decide)
      dsimp only
      omega
  · constructor
    · intro hwithin
      by_contra hlt
      -- one more operation does not fit, and neither do more of them
      refine hlong (by omega) (hwithin.of_prefix ?_)
      exact take_prefix_take_left (by omega)
    · exact fun hle => I.within.of_prefix (take_prefix_take_left hle)

/-- What a page holds, and why there is none. -/
theorem syncDataPage_post (t : TopicId) (ops : List Op) (maxMessages : ℕ) (hmax : maxBytes < usizeSize) :
    Post (codec.syncDataPage t ops maxMessages maxBytes)
      (fun page => ∃ k ≤ ops.length, ExactPage codec t ops maxMessages maxBytes k page)
      (fun _ => ∃ op ∈ ops, codec.validateOp op ≠ .ok ()) := by
  have hstart : PageInv codec t maxMessages maxBytes [] {} := pageInv_nil
  have hloop : Post (codec.pageLoop t 37 maxMessages maxBytes ops {}) _ _ := pageLoop_spec hmax hstart rfl
  have hpage : codec.syncDataPage t ops maxMessages maxBytes =
      (codec.pageLoop t 37 maxMessages maxBytes ops {}).map fun s =>
        if s.current = [] then (⟨s.messages, s.closedBytes, s.cut⟩ : DataPage)
        else ⟨s.messages ++ [.data ⟨t, s.current⟩], (s.closedBytes + openBytes 37 s) % usizeSize, s.cut⟩ := by
    unfold syncDataPage
    rw [framedMessageLen_empty, ok_bind, countLen_zero]
    simp only [Nat.reduceSub]
    cases codec.pageLoop t 37 maxMessages maxBytes ops {} with
    | error e => rfl
    | ok s =>
      simp only [ok_bind, Except.map]
      split <;> rfl
  rw [hpage]
  cases hres : codec.pageLoop t 37 maxMessages maxBytes ops {} with
  | error e =>
    obtain ⟨op, hop, hlarge⟩ := hloop.of_error hres
    exact ⟨op, hop, fun hvalid => hlarge (validateOp_eq_ok.1 hvalid)⟩
  | ok s =>
    obtain ⟨k, hk, I, hcut, hlong⟩ := hloop.of_ok hres
    refine ⟨k, hk, ?_⟩
    dsimp only
    rw [I.closes]
    exact I.exactPage hmax hk hcut hlong

/-- **Wire pages are exact.** A page holds the longest prefix of the operations that the greedy framing can fit:
its messages hold these operations in order, at least one each, encode to frames that a peer accepts, and their
frames have the reported bytes, within the limits. Only an operation that no frame holds makes it fail. -/
theorem syncDataPage_exact (codec : WireCodec) (t : TopicId) (ops : List Op) (maxMessages maxBytes : ℕ)
    (hmax : maxBytes < usizeSize) :
    (∀ page, codec.syncDataPage t ops maxMessages maxBytes = .ok page →
      ∃ k ≤ ops.length, ExactPage codec t ops maxMessages maxBytes k page) ∧
    ((∀ op ∈ ops, codec.validateOp op = .ok ()) → ∃ page, codec.syncDataPage t ops maxMessages maxBytes =
      .ok page) := by
  have hpost : Post (codec.syncDataPage t ops maxMessages maxBytes) _ _ :=
    syncDataPage_post t ops maxMessages hmax
  refine ⟨fun page h => hpost.of_ok h, fun hvalid => ?_⟩
  cases hres : codec.syncDataPage t ops maxMessages maxBytes with
  | ok page => exact ⟨page, rfl⟩
  | error e =>
    obtain ⟨op, hop, hlarge⟩ := hpost.of_error hres
    exact absurd (hvalid op hop) hlarge

/-- A codec that writes an operation as the last byte of its id. -/
def byteCodec : WireCodec where
  put op := [UInt8.ofNat op.id.bytes.val]
  take bytes := bytes.head?.map fun b => (tableOp b.toNat 1 1 none [] 0 (.event ⟨"", []⟩), bytes.tail)
  takeOther _ _ := none

/-- A page of two operations with room for one. -/
theorem syncDataPage_exact_cut : ∃ page, byteCodec.syncDataPage (IdType.ofNat 1)
      [tableOp 1 1 1 none [] 0 (.event ⟨"", []⟩), tableOp 2 1 1 none [] 0 (.event ⟨"", []⟩)] 1 39 = .ok page ∧
    ∃ k ≤ 2, ExactPage byteCodec (IdType.ofNat 1)
      [tableOp 1 1 1 none [] 0 (.event ⟨"", []⟩), tableOp 2 1 1 none [] 0 (.event ⟨"", []⟩)] 1 39 k page := by
  have h := syncDataPage_exact byteCodec (IdType.ofNat 1)
    [tableOp 1 1 1 none [] 0 (.event ⟨"", []⟩), tableOp 2 1 1 none [] 0 (.event ⟨"", []⟩)] 1 39 (by decide)
  obtain ⟨page, hpage⟩ := h.2 (by decide +kernel)
  exact ⟨page, hpage, h.1 page hpage⟩

end WireCodec

end Irokle
