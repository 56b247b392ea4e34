import Irokle.Proof.Wire
import Irokle.Spec.Session

/-!
# Served replies fit their stream

Before it plans anything, `finish_slice` reserves an empty page result for each request. The invariant of
its two passes is that the replies so far, with one such reservation for each request still without an
answer, are within the counted bytes and messages, and those within the limits. A share is what the count
leaves, divided among the requests of the pass, so that the data and the growth of a page result fit; a
failure is shorter than the reservation it replaces. What an unfinished plan leaves over is a session whose
reservations fit the remaining limits, and the next slice starts from it.

* `streamFits_iff` — what a stream accepts;
* `serveRequest_post`, `servePass_post` — one request and one pass;
* `finishSlice_post` — one slice;
* `serveSlices_fit` — all slices of a stream.
-/

namespace Irokle

open Std Postcard Outcome List ExtTreeMap

/-! ## What a stream accepts -/

/-- A message that a stream with room takes. -/
def WireCodec.Carried (codec : WireCodec) (m : SyncMessage) : Prop :=
  m.opCount ≤ maxSyncDataOpsPerMessage ∧ codec.serializedSize m ≤ maxFrameLen

/-- The framed bytes of some messages. -/
def WireCodec.frameBytes (codec : WireCodec) (ms : List SyncMessage) : ℕ :=
  (ms.map fun m => codec.serializedSize m + 4).sum

section Stream

variable {codec : WireCodec} {limits : StreamLimits} {m : SyncMessage} {ms ms' : List SyncMessage}
  {s s' : SyncReadLimits}

@[simp] theorem frameBytes_nil : codec.frameBytes [] = 0 := rfl

@[simp] theorem frameBytes_cons :
    codec.frameBytes (m :: ms) = codec.serializedSize m + 4 + codec.frameBytes ms := by
  simp [WireCodec.frameBytes]

@[simp] theorem frameBytes_append :
    codec.frameBytes (ms ++ ms') = codec.frameBytes ms + codec.frameBytes ms' := by
  simp [WireCodec.frameBytes]

theorem observeMessage_eq_ok (hbytes : s.limits.bytes < usizeSize) : s.observeMessage codec m = .ok s' ↔
    codec.Carried m ∧ s.messages + 1 ≤ s.limits.messages ∧
      s.bytes + (codec.serializedSize m + 4) ≤ s.limits.bytes ∧
      s' = { s with bytes := s.bytes + (codec.serializedSize m + 4), messages := s.messages + 1 } := by
  unfold SyncReadLimits.observeMessage SyncReadLimits.observeFrame WireCodec.Carried
  generalize codec.serializedSize m = size
  by_cases hops : m.opCount > maxSyncDataOpsPerMessage
  · rw [if_pos hops]
    exact ⟨fun h => (by cases h), fun h => absurd h.1.1 (Nat.not_le.2 hops)⟩
  rw [if_neg hops]
  by_cases hframe : size > maxFrameLen
  · rw [if_pos hframe]
    exact ⟨fun h => (by cases h), fun h => absurd h.1.2 (Nat.not_le.2 hframe)⟩
  rw [if_neg hframe]
  by_cases hroom : s.messages ≥ s.limits.messages
  · rw [if_pos hroom]
    exact ⟨fun h => (by cases h), fun h => absurd h.2.1 (by omega)⟩
  rw [if_neg hroom]
  by_cases hfit : s.bytes + (size + 4) ≤ s.limits.bytes
  · rw [if_neg (by omega), if_neg (by omega), Except.ok.injEq, eq_comm]
    exact ⟨fun h => ⟨⟨Nat.not_lt.1 hops, Nat.not_lt.1 hframe⟩, by omega, hfit, h⟩, fun h => h.2.2.2⟩
  · constructor
    · intro h
      split at h
      · cases h
      · rw [if_pos (by omega)] at h
        cases h
    · exact fun h => absurd h.2.2.1 hfit

theorem foldlM_observe (hbytes : s.limits.bytes < usizeSize) (hm : s.messages ≤ s.limits.messages)
    (hb : s.bytes ≤ s.limits.bytes) :
    (∃ s', ms.foldlM (SyncReadLimits.observeMessage codec) s = .ok s') ↔
      (∀ m ∈ ms, codec.Carried m) ∧ s.messages + ms.length ≤ s.limits.messages ∧ s.bytes + codec.frameBytes ms ≤
        s.limits.bytes := by
  induction ms generalizing s with
  | nil => simpa [pure, Except.pure] using ⟨hm, hb⟩
  | cons m ms ih =>
    rw [foldlM_cons]
    constructor
    · rintro ⟨s', h⟩
      obtain ⟨s₁, h₁, h₂⟩ := bind_eq_ok.1 h
      obtain ⟨hcarried, hm₁, hb₁, rfl⟩ := (observeMessage_eq_ok hbytes).1 h₁
      obtain ⟨hall, hm₂, hb₂⟩ :=
        (ih (s := { s with bytes := s.bytes + (codec.serializedSize m + 4), messages := s.messages + 1 }) hbytes
          hm₁ hb₁).1 ⟨s', h₂⟩
      dsimp only at hm₂ hb₂
      refine ⟨?_, by simp; omega, by simp; omega⟩
      simpa using ⟨hcarried, hall⟩
    · rintro ⟨hall, hm₁, hb₁⟩
      rw [length_cons] at hm₁
      rw [frameBytes_cons] at hb₁
      have hhead := (observeMessage_eq_ok (s := s) (m := m) hbytes).2 ⟨hall m (by simp), by omega, by omega, rfl⟩
      rw [hhead, ok_bind]
      refine (ih (s := { s with bytes := s.bytes + (codec.serializedSize m + 4), messages := s.messages + 1 })
        hbytes ?_ ?_).2 ⟨fun m' hm' => hall m' (by simp [hm']), ?_, ?_⟩ <;> dsimp only <;> omega

/-- **What a stream accepts.** -/
theorem streamFits_iff (hbytes : limits.bytes < usizeSize) : streamFits codec ms limits = .ok () ↔
    (∀ m ∈ ms, codec.Carried m) ∧ ms.length ≤ limits.messages ∧ codec.frameBytes ms ≤ limits.bytes := by
  have h : (∃ s', ms.foldlM (SyncReadLimits.observeMessage codec) { limits := limits } = .ok s') ↔ _ :=
    foldlM_observe hbytes (Nat.zero_le _) (Nat.zero_le _)
  simp only [Nat.zero_add] at h
  rw [← h]
  unfold streamFits
  cases List.foldlM (SyncReadLimits.observeMessage codec) { limits := limits } ms with
  | error e => exact ⟨fun h => (by cases h), fun h => (by cases h.choose_spec)⟩
  | ok s => exact ⟨fun _ => ⟨s, rfl⟩, fun _ => rfl⟩

theorem framedMessageLen_of_carried (h : codec.Carried m) :
    codec.framedMessageLen m = .ok (4 + codec.serializedSize m) :=
  if_neg (Nat.not_lt.2 h.2)

end Stream

/-! ## Lengths of the answers -/

theorem length_putVarint_le (limbs n : ℕ) : (putVarint limbs n).length ≤ limbs := by
  induction limbs generalizing n with
  | zero => simp [putVarint]
  | succ limbs ih =>
    rw [putVarint]
    split
    · simp
    · simpa using ih (n / 128)

theorem length_putIds {k : IdKind} (ids : BTreeSet (IdType k)) :
    (putIds ids).length = WireCodec.countLen ids.size + 32 * ids.size := by
  have hmany : ∀ xs : List (Fin (2 ^ 256)), (putMany xs).length = 32 * xs.length := by
    intro xs
    rw [putMany, length_flatMap]
    simp [Nat.mul_comm]
  rw [putIds, length_append, hmany, length_map, ExtTreeSet.length_toList]
  rfl

theorem SyncPage.length_encode (page : SyncPage) :
    page.encode.length = 34 + (putIds page.missing).length + (putIds page.positions).length := by
  have hbool : ∀ b : Bool, (putBool b).length = 1 := fun _ => rfl
  simp only [SyncPage.encode, length_append, hbool, length_putArray]
  omega

theorem length_encode_emptyPage (t : TopicId) : (emptyPage t).encode.length = 36 := by
  have hempty : ∀ k : IdKind, (putIds (∅ : BTreeSet (IdType k))).length = 1 := by
    intro k
    rw [length_putIds]
    simp [WireCodec.countLen_zero]
  rw [SyncPage.length_encode, emptyPage, hempty, hempty]

theorem emptyPage_le (page : SyncPage) : 36 ≤ page.encode.length := by
  have hone : ∀ n, 1 ≤ (putVarint 10 n).length := by
    intro n
    rw [putVarint]
    split <;> simp
  have hids : ∀ {k : IdKind} (ids : BTreeSet (IdType k)), 1 ≤ (putIds ids).length := by
    intro k ids
    rw [length_putIds]
    have := hone ids.size
    unfold WireCodec.countLen putU64
    omega
  have h₁ := hids page.missing
  have h₂ := hids page.positions
  rw [SyncPage.length_encode]
  omega

section Sizes

variable {codec : WireCodec}

theorem serializedSize_page (page : SyncPage) :
    codec.serializedSize (Reply.page page).message = page.encode.length + 1 := by
  have htag : (putU32 7).length = 1 := by decide
  simp only [WireCodec.serializedSize, Reply.message, WireCodec.encodeSyncMessage, length_append, htag]
  omega

theorem serializedSize_failure (failure : SyncFailure) :
    codec.serializedSize (Reply.failure failure).message = 34 := by
  obtain ⟨t, code⟩ := failure
  have htag : (putU32 6).length = 1 := by decide
  have hcode : (putU32 code.tag).length = 1 := by cases code <;> decide
  simp only [WireCodec.serializedSize, Reply.message, WireCodec.encodeSyncMessage, SyncFailure.encode,
    length_append, htag, hcode, length_putArray]

theorem carried_failure (failure : SyncFailure) : codec.Carried (Reply.failure failure).message :=
  ⟨Nat.zero_le _, by rw [serializedSize_failure]; decide⟩

/-- A page result of a planned page fits a frame. -/
theorem carried_page {page : SyncPage} (hmissing : page.missing.size ≤ 2 * maxPageMissing)
    (hpositions : page.positions.size ≤ maxPageMissing) :
    codec.Carried (Reply.page page).message := by
  refine ⟨Nat.zero_le _, ?_⟩
  rw [serializedSize_page, SyncPage.length_encode, length_putIds, length_putIds]
  have h₁ : WireCodec.countLen page.missing.size ≤ 10 := length_putVarint_le 10 _
  have h₂ : WireCodec.countLen page.positions.size ≤ 10 := length_putVarint_le 10 _
  unfold maxPageMissing at hmissing hpositions
  unfold maxFrameLen
  omega

end Sizes

/-! ## Answers -/

/-- The reply answers the request of the topic. -/
def Reply.answers (t : TopicId) : Reply → Bool
  | .page p => decide (p.topicId = t)
  | .failure f => decide (f.topicId = t ∧ f.code = .request)
  | _ => false

/-- How often a request of the topic is answered. -/
def answersTo (t : TopicId) (replies : List Reply) : ℕ := replies.countP (Reply.answers t)

/-- How often the topic is requested. -/
def asked (t : TopicId) (requests : List TopicRequest) : ℕ := requests.countP fun e => decide (e.1 = t)

/-- The replies and the requests that are left account for the requests `asked` for, and fit the limits with
an empty page result for each one left. -/
structure Fitting (server : Server) (limits : StreamLimits) (requests rest : List TopicRequest)
    (replies : List Reply) : Prop where
  bytes : server.codec.frameBytes (replies.map Reply.message) + 41 * rest.length ≤ limits.bytes
  messages : replies.length + rest.length ≤ limits.messages
  carried : ∀ r ∈ replies, server.codec.Carried r.message
  once : ∀ t, answersTo t replies + asked t rest = asked t requests
  kept : ∀ e ∈ rest, e ∈ requests

/-- What the passes of `finish_slice` keep: the counts are within the limits and cover the replies and the
reservations. -/
structure ServeInv (server : Server) (limits : StreamLimits) (requests queue : List TopicRequest)
    (s : Serving) : Prop where
  bytes_le : s.bytes ≤ limits.bytes
  messages_le : s.messages ≤ limits.messages
  fitting : Fitting server ⟨s.bytes, s.messages, 0⟩ requests (queue ++ s.deferred) s.responses

/-- The planner goes on with the same request. -/
def PlannedPage.Unfinished (page : PlannedPage) : Prop :=
  page.continued = true ∧ page.positions.isEmpty = true ∧ page.missing.isEmpty = true

/-- Every operation the planner puts on a page fits a frame. -/
def Server.PlansValid (server : Server) : Prop :=
  ∀ i t request budget page, server.plan i t request budget = .ok page →
    ∀ op ∈ page.ops, server.codec.validateOp op = .ok ()

section Counts

variable {t : TopicId} {e : TopicRequest} {requests requests' : List TopicRequest} {replies replies' : List Reply}

@[simp] theorem answersTo_append :
    answersTo t (replies ++ replies') = answersTo t replies + answersTo t replies' := by
  simp [answersTo]

@[simp] theorem answersTo_data (ms : List SyncMessage) : answersTo t (ms.map Reply.data) = 0 := by
  simp [answersTo, Reply.answers]

@[simp] theorem answersTo_control (ms : List SyncMessage) : answersTo t (ms.map Reply.control) = 0 := by
  simp [answersTo, Reply.answers]

theorem asked_cons : asked t (e :: requests) = (if e.1 = t then 1 else 0) + asked t requests := by
  simp only [asked, countP_cons, decide_eq_true_eq]
  omega

theorem asked_perm (h : requests.Perm requests') : asked t requests = asked t requests' := h.countP_eq _

end Counts

section Fitting

variable {server : Server} {limits : StreamLimits} {requests rest rest' : List TopicRequest}
  {replies : List Reply} {e : TopicRequest}

theorem Fitting.perm (F : Fitting server limits requests rest replies) (h : rest.Perm rest') :
    Fitting server limits requests rest' replies :=
  ⟨h.length_eq ▸ F.bytes, h.length_eq ▸ F.messages, F.carried, fun t => asked_perm h ▸ F.once t,
    fun e he => F.kept e (h.mem_iff.2 he)⟩

/-- A failure takes less than the page result reserved for it. -/
theorem Fitting.fail (F : Fitting server limits requests (e :: rest) replies) :
    Fitting server limits requests rest (replies ++ [.failure ⟨e.1, .request⟩]) := by
  have hbytes := F.bytes
  have hmessages := F.messages
  rw [length_cons] at hbytes hmessages
  refine ⟨?_, ?_, ?_, fun t => ?_, fun e he => F.kept e (by simp [he])⟩
  · rw [map_append, frameBytes_append, map_singleton, frameBytes_cons, serializedSize_failure, frameBytes_nil]
    omega
  · rw [length_append, length_singleton]
    omega
  · intro r hr
    rcases mem_append.1 hr with hr | hr
    · exact F.carried r hr
    · rw [mem_singleton.1 hr]
      exact carried_failure _
  · rw [← F.once t, asked_cons, answersTo_append]
    simp only [answersTo, countP_singleton, Reply.answers, and_true, decide_eq_true_eq]
    omega

/-- The data of a page and its result, by which the result outgrew the reservation. -/
theorem Fitting.page {ms : List SyncMessage} {result : SyncPage} {extra bytes messages k : ℕ}
    (F : Fitting server ⟨bytes, messages, k⟩ requests (e :: rest) replies)
    (hms : ∀ m ∈ ms, server.codec.Carried m) (hresult : server.codec.Carried (Reply.page result).message)
    (htopic : result.topicId = e.1) (hextra : result.encode.length = 36 + extra) :
    Fitting server ⟨bytes + server.codec.frameBytes ms + extra, messages + ms.length, k⟩ requests rest
      (replies ++ ms.map .data ++ [.page result]) := by
  have hbytes := F.bytes
  have hmessages := F.messages
  rw [length_cons] at hbytes hmessages
  have hmap : (ms.map Reply.data).map Reply.message = ms := by
    rw [List.map_map]
    exact map_id' ms
  dsimp only at hbytes hmessages
  refine ⟨?_, ?_, ?_, fun t => ?_, fun e he => F.kept e (by simp [he])⟩
  · rw [map_append, map_append, frameBytes_append, frameBytes_append, hmap, map_singleton, frameBytes_cons,
      serializedSize_page, hextra, frameBytes_nil]
    dsimp only
    omega
  · rw [length_append, length_append, length_map, length_singleton]
    dsimp only
    omega
  · intro r hr
    rcases mem_append.1 hr with hr | hr
    · rcases mem_append.1 hr with hr | hr
      · exact F.carried r hr
      · obtain ⟨m, hm, rfl⟩ := List.mem_map.1 hr
        exact hms m hm
    · rw [mem_singleton.1 hr]
      exact hresult
  · rw [← F.once t, asked_cons, answersTo_append, answersTo_append, answersTo_data]
    simp only [answersTo, countP_singleton, Reply.answers, htopic, decide_eq_true_eq]
    omega

end Fitting

/-! ## One request -/

section Serve

variable {server : Server} {limits : StreamLimits} {granted : ℕ} {served pass : Bool}
  {requests queue : List TopicRequest} {e : TopicRequest} {s : Serving}

theorem ServeInv.mono {bytes messages : ℕ} (hbytes : bytes ≤ limits.bytes)
    (hmessages : messages ≤ limits.messages) {rest : List TopicRequest} {replies : List Reply}
    (F : Fitting server ⟨bytes, messages, 0⟩ requests rest replies) :
    Fitting server limits requests rest replies :=
  ⟨F.bytes.trans hbytes, F.messages.trans hmessages, F.carried, F.once, F.kept⟩

theorem usizeSub_of_le {a b : ℕ} (h : b ≤ a) : usizeSub a b = .ok (a - b) := if_pos h

theorem usizeAdd_of_lt {a b : ℕ} (h : a + b < usizeSize) : usizeAdd a b = .ok (a + b) := if_pos h

theorem failRequest_eq (t : TopicId) : ∃ held, server.failRequest s t =
    .ok { s with held := held, responses := s.responses ++ [.failure ⟨t, .request⟩] } := by
  unfold Server.failRequest
  dsimp only
  rw [framedMessageLen_of_carried (carried_failure _), ok_bind]
  exact ⟨_, rfl⟩

/-- The page of a request fits its share; without data for now, the request is set aside in the first pass. -/
theorem fillPage_post {ops : List Op} {result : SyncPage} {extra shareBytes shareMessages : ℕ}
    (hsize : limits.bytes < usizeSize) (hcount : limits.messages < usizeSize)
    (F : Fitting server ⟨s.bytes, s.messages, 0⟩ requests (e :: queue ++ s.deferred) s.responses)
    (hbytes : s.bytes + shareBytes ≤ limits.bytes) (hmessages : s.messages + shareMessages ≤ limits.messages)
    (hops : ∀ op ∈ ops, server.codec.validateOp op = .ok ()) (hmissing : result.missing.size ≤ 2 * maxPageMissing)
    (hpositions : result.positions.size ≤ maxPageMissing) (htopic : result.topicId = e.1)
    (hextra : result.encode.length = 36 + extra) (hle : extra ≤ shareBytes) :
    Post (server.fillPage pass s e ops result extra shareBytes shareMessages)
      (fun s' => ServeInv server limits requests queue s' ∧ s'.left = s.left ∧ s'.calls = s.calls ∧
        (pass = true → s'.deferred = s.deferred))
      (fun _ => False) := by
  have hpos : 41 ≤ s.bytes := by
    have := F.bytes
    rw [cons_append, length_cons] at this
    dsimp only at this
    omega
  unfold Server.fillPage
  rw [usizeSub_of_le hle, ok_bind]
  have hpage : Post (server.codec.syncDataPage e.1 ops shareMessages (shareBytes - extra)) _ _ :=
    WireCodec.syncDataPage_post e.1 ops shareMessages (by omega)
  refine (hpage.mono (fun _ h => h) fun err h => ?_).bind fun data hdata => ?_
  · obtain ⟨op, hop, hbad⟩ := h
    exact hbad (hops op hop)
  obtain ⟨k, -, hexact⟩ := hdata
  -- the bytes are exact, since a reservation keeps the share below the largest `usize`
  have hdataBytes : data.bytes = server.codec.frameBytes data.messages := by
    rw [hexact.bytes_eq (by unfold usizeSize at hsize ⊢; omega)]
    unfold WireCodec.frameBytes
    exact congrArg List.sum (map_congr_left fun m _ => Nat.add_comm _ _)
  have hcarried : ∀ m ∈ data.messages, server.codec.Carried m := by
    intro m hm
    have hframed := hexact.framed m hm
    obtain ⟨frame, -, hlen, hmax, -⟩ := hframed.frame
    refine ⟨?_, by omega⟩
    have := hframed.count_le
    rw [hframed.eq]
    exact this
  have hdle := hexact.bytes_le
  have hmle := hexact.count_le
  dsimp only
  split
  · refine Post.pure ⟨⟨by dsimp only; omega, by dsimp only; omega, F.perm ?_⟩, rfl, rfl, fun hpass => ?_⟩
    · rw [← append_assoc]
      exact (perm_append_singleton e (queue ++ s.deferred)).symm
    · rename_i hdefer
      rw [hpass] at hdefer
      exact absurd hdefer.1 (by decide)
  · rw [usizeAdd_of_lt (by omega), ok_bind, usizeAdd_of_lt (by omega), ok_bind,
      usizeAdd_of_lt (by omega), ok_bind, framedMessageLen_of_carried
      (carried_page (by simp [emptyPage]) (by simp [emptyPage])), ok_bind]
    refine Post.pure ⟨⟨by dsimp only; omega, by dsimp only; omega, ?_⟩, rfl, rfl, fun _ => rfl⟩
    rw [hdataBytes]
    refine Fitting.page F hcarried (carried_page hmissing hpositions) htopic ?_
    rw [SyncPage.length_encode] at hextra ⊢
    exact hextra

/-- What one request of a pass leaves: it is answered or set aside, or its plan goes on in another slice. -/
def RequestServed (server : Server) (limits : StreamLimits) (pass : Bool) (requests queue : List TopicRequest)
    (e : TopicRequest) (s : Serving) (out : Bool × Serving) : Prop :=
  out.2.calls = s.calls + 1 ∧ (pass = true → out.2.deferred = s.deferred) ∧
  (out.1 = false → ServeInv server limits requests queue out.2 ∧ out.2.left = queue.length) ∧
  (out.1 = true → ServeInv server limits requests (e :: queue) out.2 ∧
    ∃ t request budget page, server.plan s.calls t request budget = .ok page ∧ page.Unfinished)

theorem serveRequest_post (hsize : limits.bytes < usizeSize) (hcount : limits.messages < usizeSize)
    (hplans : server.PlansValid) (I : ServeInv server limits requests (e :: queue) s)
    (hleft : s.left = queue.length + 1) :
    Post (server.serveRequest granted limits served pass s e)
      (RequestServed server limits pass requests queue e s) (fun _ => False) := by
  have hb := I.bytes_le
  have hm := I.messages_le
  have hbshare : (limits.bytes - s.bytes) / s.left ≤ limits.bytes - s.bytes := Nat.div_le_self _ _
  have hmshare : (limits.messages - s.messages) / s.left ≤ limits.messages - s.messages := Nat.div_le_self _ _
  unfold Server.serveRequest
  rw [usizeSub_of_le hb, ok_bind, usizeDiv, if_neg (by omega), ok_bind, usizeSub_of_le hm, ok_bind, usizeDiv,
    if_neg (by omega), ok_bind, usizeSub_of_le (by omega), ok_bind]
  generalize (limits.bytes - s.bytes) / s.left = shareBytes at hbshare ⊢
  generalize (limits.messages - s.messages) / s.left = shareMessages at hmshare ⊢
  dsimp only
  have hfail : Post (do
      let s' ← server.failRequest { s with left := s.left - 1, calls := s.calls + 1 } e.1
      return (false, s'))
      (RequestServed server limits pass requests queue e s) (fun _ => False) := by
    obtain ⟨held, hfail⟩ : ∃ held, server.failRequest { s with left := s.left - 1, calls := s.calls + 1 } e.1 =
      _ := failRequest_eq e.1
    rw [hfail, ok_bind]
    refine Post.pure ⟨rfl, fun _ => rfl, fun _ => ⟨⟨hb, hm, I.fitting.fail⟩, ?_⟩, fun h => (by cases h)⟩
    dsimp only
    omega
  cases hplan : server.plan s.calls e.1 e.2
    (server.pageBudget e.2 shareBytes shareMessages (granted - s.held)) with
  | error err => exact hfail
  | ok page =>
    dsimp only
    rw [length_encode_emptyPage, usizeSub_of_le (emptyPage_le _), ok_bind]
    split
    · exact hfail
    rename_i hextra
    split
    · rename_i hunfinished
      obtain ⟨-, hcontinued, hpositions, hmissing⟩ := hunfinished
      refine Post.pure ⟨rfl, fun _ => rfl, fun h => (by cases h), fun _ => ⟨⟨hb, hm, I.fitting⟩, ?_⟩⟩
      exact ⟨_, _, _, page, hplan, hcontinued, hpositions, hmissing⟩
    · have hfill : Post (server.fillPage pass { s with left := s.left - 1, calls := s.calls + 1 } e page.ops
          (if served = true then ⟨e.1, page.more, page.missing, page.positions, false⟩
            else ⟨e.1, page.more, page.missing, page.positions, page.continued⟩)
          ((⟨e.1, page.more, page.missing, page.positions, page.continued⟩ : SyncPage).encode.length - 36)
            shareBytes shareMessages) _ _ :=
        fillPage_post hsize hcount I.fitting (by dsimp only; omega) (by dsimp only; omega)
          (hplans _ _ _ _ page hplan)
          (by split <;> exact page.missing_le) (by split <;> exact page.positions_le) (by split <;> rfl)
          (by
            have hlen := emptyPage_le ⟨e.1, page.more, page.missing, page.positions, page.continued⟩
            split
            all_goals
              simp only [SyncPage.length_encode] at hlen ⊢
              omega)
          (Nat.not_lt.1 hextra)
      refine hfill.bind fun s' hs' => Post.pure ?_
      obtain ⟨hinv, hleft', hcalls, hdeferred⟩ := hs'
      exact ⟨hcalls, hdeferred, fun _ => ⟨hinv, by rw [hleft']; dsimp only; omega⟩, fun h => (by cases h)⟩

/-- What a pass leaves: nothing of its queue, or the requests behind an unfinished plan. -/
def PassLeft (server : Server) (limits : StreamLimits) (pass : Bool) (requests : List TopicRequest) (s : Serving)
    (out : List TopicRequest × Serving) : Prop :=
  s.calls ≤ out.2.calls ∧
  (out.1 = [] → ServeInv server limits requests [] out.2 ∧ (pass = true → out.2.deferred = s.deferred)) ∧
  (out.1 ≠ [] → Fitting server limits requests out.1 out.2.responses ∧ s.calls < out.2.calls ∧
    ∃ t request budget page, server.plan (out.2.calls - 1) t request budget = .ok page ∧ page.Unfinished)

theorem servePass_post (hsize : limits.bytes < usizeSize) (hcount : limits.messages < usizeSize)
    (hplans : server.PlansValid) (I : ServeInv server limits requests queue s) (hleft : s.left = queue.length) :
    Post (server.servePass granted limits served pass queue s) (PassLeft server limits pass requests s)
      (fun _ => False) := by
  induction queue generalizing s with
  | nil => exact Post.ok ⟨Nat.le_refl _, fun _ => ⟨I, fun _ => rfl⟩, fun h => absurd rfl h⟩
  | cons e queue ih =>
    unfold Server.servePass
    refine (serveRequest_post hsize hcount hplans I (by simpa using hleft)).bind fun out hout => ?_
    obtain ⟨unfinished, s₁⟩ := out
    obtain ⟨hcalls, hdeferred, hdone, hstop⟩ := hout
    have hnext : s₁.calls = s.calls + 1 := hcalls
    cases unfinished with
    | true =>
      obtain ⟨J, hplan⟩ := hstop rfl
      refine Post.pure ⟨by dsimp only; omega, fun h => (by cases h), fun _ => ⟨?_, by dsimp only; omega, ?_⟩⟩
      · exact ServeInv.mono J.bytes_le J.messages_le J.fitting
      · have hlast : s₁.calls - 1 = s.calls := by omega
        rw [hlast]
        exact hplan
    | false =>
      obtain ⟨J, hleft₁⟩ := hdone rfl
      refine (ih J hleft₁).mono (fun out hout => ?_) fun _ h => h
      obtain ⟨hle, hnil, hrest⟩ := hout
      refine ⟨by omega, fun h => ⟨(hnil h).1, fun hpass => ((hnil h).2 hpass).trans (hdeferred hpass)⟩,
        fun h => ?_⟩
      obtain ⟨F, hlt, hplan⟩ := hrest h
      exact ⟨F, by omega, hplan⟩

end Serve

/-! ## One slice -/

section Slice

variable {server : Server} {limits : StreamLimits} {granted calls : ℕ} {served : Bool} {session : SyncSession}
  {replies : List Reply} {requests rest : List TopicRequest}

/-- The messages kept while the stream was read and an empty page result for each request, as a stream takes
them. -/
def Server.reservedFits (server : Server) (session : SyncSession) (limits : StreamLimits) : Except String Unit :=
  do
  let controls ← server.controlReplies session
  streamFits server.codec ((controls ++ session.requests.keys.map fun t => Reply.page (emptyPage t)).map
    Reply.message) limits

/-- Entries with distinct keys are those of their map. -/
theorem ofList_toList_perm {κ ν : Type} [Ord κ] [TransOrd κ] [LawfulEqOrd κ] [DecidableEq κ] {l : List (κ × ν)}
    (h : (l.map Prod.fst).Nodup) : (ExtTreeMap.ofList l compare).toList.Perm l := by
  have hpair : l.Pairwise fun a b => ¬ compare a.1 b.1 = .eq := by
    rw [List.Nodup, pairwise_map] at h
    exact h.imp fun hne => by simpa using hne
  have hget : ∀ {k v}, (k, v) ∈ l → (ExtTreeMap.ofList l compare)[k]? = some v :=
    fun hmem => getElem?_ofList_of_mem (by simp) hpair hmem
  refine (perm_ext_iff_of_nodup (nodup_toList _) h.of_map).2 ?_
  rintro ⟨k, v⟩
  rw [mem_toList_iff_getElem?_eq_some]
  constructor
  · intro hv
    have hmem : k ∈ ExtTreeMap.ofList l compare := mem_iff_isSome_getElem?.2 (by rw [hv]; rfl)
    rw [mem_ofList, List.contains_iff_mem, List.mem_map] at hmem
    obtain ⟨⟨k', v'⟩, hin, rfl⟩ := hmem
    rw [hget hin, Option.some.injEq] at hv
    exact hv ▸ hin
  · exact hget

theorem count_map_fst (t : TopicId) (l : List TopicRequest) : (l.map Prod.fst).count t = asked t l := by
  rw [List.count, countP_map]
  exact countP_congr fun e _ => by simp

theorem asked_toList (m : BTreeMap TopicId SyncRequest) (t : TopicId) :
    asked t m.toList = m[t]?.isSome.toNat := by
  rw [← count_map_fst, map_fst_toList_eq_keys]
  cases hsome : m[t]?.isSome with
  | true =>
    refine count_eq_one_of_mem ?_ (ExtTreeMap.mem_keys.2 (mem_iff_isSome_getElem?.2 hsome))
    rw [← map_fst_toList_eq_keys]
    exact nodup_keys_toList m
  | false =>
    refine count_eq_zero.2 fun h => ?_
    rw [ExtTreeMap.mem_keys, mem_iff_isSome_getElem?, hsome] at h
    cases h

/-- The requests that are left go back to the session. -/
theorem Fitting.waiting {m : BTreeMap TopicId SyncRequest} (F : Fitting server limits m.toList rest replies)
    (peerId : PeerId) :
    Fitting server limits m.toList (SyncSession.waiting peerId rest).requests.toList replies := by
  refine F.perm (ofList_toList_perm ?_).symm
  refine nodup_iff_count_le_one.2 fun t => ?_
  have honce := F.once t
  have hle := Bool.toNat_le m[t]?.isSome
  rw [asked_toList] at honce
  rw [count_map_fst]
  omega

/-- What a slice leaves. -/
structure SliceLeft (server : Server) (limits : StreamLimits) (session : SyncSession) (calls : ℕ)
    (slice : Server.Slice) : Prop where
  fitting : Fitting server limits session.requests.toList slice.session.requests.toList slice.responses
  plain : server.controlReplies slice.session = .ok []
  unfinished : slice.session.requests ≠ ∅ → calls < slice.calls ∧
    ∃ t request budget page, server.plan (slice.calls - 1) t request budget = .ok page ∧ page.Unfinished

theorem controlReplies_ok (server : Server) (session : SyncSession) :
    ∃ controls, server.controlReplies session = .ok controls ∧ ∀ t, answersTo t controls = 0 := by
  have hacks : ∃ acks, server.applyAcks session = .ok acks ∧ ∀ t, answersTo t acks = 0 := by
    unfold Server.applyAcks
    split
    · exact ⟨[], rfl, fun _ => rfl⟩
    rename_i hne
    cases hpeer : session.remotePeerId with
    | none => exact absurd (session.opened hpeer).1 hne
    | some peerId => exact ⟨_, rfl, fun t => by simp [answersTo, Reply.answers]⟩
  obtain ⟨acks, hacks, hzero⟩ := hacks
  unfold Server.controlReplies
  rw [hacks, ok_bind]
  exact ⟨_, rfl, fun t => by simp [hzero t]⟩

theorem reservedFits_iff (hsize : limits.bytes < usizeSize) {controls : List Reply}
    (hcontrols : server.controlReplies session = .ok controls) :
    server.reservedFits session limits = .ok () ↔ (∀ r ∈ controls, server.codec.Carried r.message) ∧
      controls.length + session.requests.toList.length ≤ limits.messages ∧
      server.codec.frameBytes (controls.map Reply.message) + 41 * session.requests.toList.length ≤
        limits.bytes := by
  have hempty : ∀ ts : List TopicId, server.codec.frameBytes
      ((ts.map fun t => Reply.page (emptyPage t)).map Reply.message) = 41 * ts.length := by
    intro ts
    induction ts with
    | nil => rfl
    | cons t ts ih =>
      rw [map_cons, map_cons, frameBytes_cons, ih, serializedSize_page, length_encode_emptyPage, length_cons]
      omega
  have hkeys : session.requests.keys.length = session.requests.toList.length := by
    rw [← map_fst_toList_eq_keys, length_map]
  unfold Server.reservedFits
  rw [hcontrols, ok_bind, streamFits_iff hsize, map_append, frameBytes_append, hempty, length_append,
    length_map, length_map, length_map, hkeys]
  refine and_congr ⟨fun h r hr => h _ (by simp only [mem_append, List.mem_map]; exact Or.inl ⟨r, hr, rfl⟩),
    fun h m hm => ?_⟩ Iff.rfl
  rcases mem_append.1 hm with hm | hm
  · obtain ⟨r, hr, rfl⟩ := List.mem_map.1 hm
    exact h r hr
  · obtain ⟨r, hr, rfl⟩ := List.mem_map.1 hm
    obtain ⟨t, -, rfl⟩ := List.mem_map.1 hr
    exact carried_page (by simp [emptyPage]) (by simp [emptyPage])

theorem mapM_framed {α : Type} {codec : WireCodec} {f : α → SyncMessage} {l : List α}
    (h : ∀ a ∈ l, codec.Carried (f a)) :
    l.mapM (fun a => codec.framedMessageLen (f a)) = .ok (l.map fun a => codec.serializedSize (f a) + 4) := by
  induction l with
  | nil => rfl
  | cons a l ih =>
    rw [mapM_cons, framedMessageLen_of_carried (h a (by simp)), ok_bind, ih fun b hb => h b (by simp [hb]),
      ok_bind, Nat.add_comm 4]
    rfl

theorem foldlM_usizeAdd {l : List ℕ} {a : ℕ} (h : a + l.sum < usizeSize) :
    l.foldlM usizeAdd a = .ok (a + l.sum) := by
  induction l generalizing a with
  | nil => rfl
  | cons b l ih =>
    rw [sum_cons] at h
    rw [foldlM_cons, usizeAdd_of_lt (by omega), ok_bind, ih (by omega), sum_cons, Nat.add_assoc]

/-- **One slice**: it returns, and what it leaves fits what it was given. -/
theorem finishSlice_post (hsize : limits.bytes < usizeSize) (hcount : limits.messages < usizeSize)
    (hplans : server.PlansValid) (hfit : server.reservedFits session limits = .ok ()) :
    Post (server.finishSlice session calls granted limits served) (SliceLeft server limits session calls)
      (fun _ => False) := by
  obtain ⟨controls, hcontrols, hzero⟩ := controlReplies_ok server session
  obtain ⟨hcarried, hmessages, hbytes⟩ := (reservedFits_iff hsize hcontrols).1 hfit
  have hstart : Fitting server limits session.requests.toList session.requests.toList controls :=
    ⟨hbytes, hmessages, hcarried, fun t => by rw [hzero, Nat.zero_add], fun _ he => he⟩
  unfold Server.finishSlice
  rw [hcontrols, ok_bind]
  cases hpeer : session.remotePeerId with
  | none =>
    -- a session that was never opened has no requests
    have hnone : session.requests = ∅ := (session.opened hpeer).2
    refine Post.pure ⟨?_, rfl, fun h => absurd rfl h⟩
    rw [hnone] at hstart ⊢
    exact hstart
  | some peerId =>
    dsimp only
    rw [framedMessageLen_of_carried (carried_page (by simp [emptyPage]) (by simp [emptyPage])), ok_bind,
      serializedSize_page, length_encode_emptyPage, usizeMul, if_pos (by omega), ok_bind,
      mapM_framed hcarried, ok_bind]
    have hsum : (controls.map fun r => server.codec.serializedSize r.message + 4).sum = server.codec.frameBytes
        (controls.map Reply.message) := by
      rw [WireCodec.frameBytes, List.map_map]
      rfl
    rw [foldlM_usizeAdd (by rw [hsum]; omega), ok_bind, usizeAdd_of_lt (by omega), ok_bind, hsum,
      if_neg (by omega)]
    have I : ServeInv server limits session.requests.toList session.requests.toList
        ⟨session.requests.toList.length * (4 + (36 + 1)) + server.codec.frameBytes (controls.map Reply.message),
          controls.length + session.requests.toList.length, session.requests.toList.length, calls, 0,
          controls, []⟩ := by
      refine ⟨by dsimp only; omega, hmessages, ?_⟩
      rw [append_nil]
      exact ⟨by dsimp only; omega, Nat.le_refl _, hstart.carried, hstart.once, hstart.kept⟩
    refine (servePass_post hsize hcount hplans I rfl).bind fun out hout => ?_
    obtain ⟨rest, s⟩ := out
    obtain ⟨hle, hnil, hrest⟩ := hout
    dsimp only at hle hnil hrest ⊢
    split
    · rename_i hne
      obtain ⟨F, hlt, hplan⟩ := hrest hne
      exact Post.pure ⟨F.waiting peerId, rfl, fun _ => ⟨hlt, hplan⟩⟩
    · rename_i hdone
      have J := (hnil (not_not.1 hdone)).1
      have J' : ServeInv server limits session.requests.toList s.deferred
          { s with left := s.deferred.length, deferred := [] } := by
        refine ⟨J.bytes_le, J.messages_le, ?_⟩
        rw [append_nil]
        exact J.fitting
      refine (servePass_post hsize hcount hplans J' rfl).bind fun out hout => ?_
      obtain ⟨rest', s'⟩ := out
      obtain ⟨hle', hnil', hrest'⟩ := hout
      dsimp only at hle' hnil' hrest' ⊢
      split
      · rename_i hne
        obtain ⟨F, hlt, hplan⟩ := hrest' hne
        exact Post.pure ⟨F.waiting peerId, rfl, fun _ => ⟨Nat.lt_of_le_of_lt hle hlt, hplan⟩⟩
      · rename_i hdone'
        obtain ⟨K, hdeferred⟩ := hnil' (not_not.1 hdone')
        have F : Fitting server limits session.requests.toList [] s'.responses := by
          have := ServeInv.mono K.bytes_le K.messages_le K.fitting
          rwa [hdeferred rfl] at this
        have hfits : streamFits server.codec (s'.responses.map Reply.message) limits = .ok () := by
          refine (streamFits_iff hsize).2 ⟨?_, ?_, ?_⟩
          · intro m hm
            obtain ⟨r, hr, rfl⟩ := List.mem_map.1 hm
            exact F.carried r hr
          · simpa using F.messages
          · simpa using F.bytes
        rw [hfits, ok_bind]
        exact Post.pure ⟨F.waiting peerId, rfl, fun h => absurd rfl h⟩

end Slice

/-! ## All slices of a stream -/

section Slices

variable {server : Server} {limits : StreamLimits} {granted n : ℕ} {session : SyncSession} {st : Server.Slices}

/-- What the slices of a stream keep: the replies fit the limits with the reservations of what is left, and the
remaining limits are what the replies leave. -/
structure SlicesInv (server : Server) (limits : StreamLimits) (session : SyncSession)
    (st : Server.Slices) : Prop where
  fitting : Fitting server limits session.requests.toList st.session.requests.toList st.responses
  bytes : st.remaining.bytes = limits.bytes - server.codec.frameBytes (st.responses.map Reply.message)
  messages : st.remaining.messages = limits.messages - st.responses.length
  reserved : server.reservedFits st.session st.remaining = .ok ()
  unfinished : st.session.requests ≠ ∅ → st.calls ≠ 0 →
    ∃ t request budget page, server.plan (st.calls - 1) t request budget = .ok page ∧ page.Unfinished

theorem foldl_sub (l : List ℕ) (a : ℕ) : l.foldl (fun bytes len => bytes - len) a = a - l.sum := by
  induction l generalizing a with
  | nil => simp
  | cons b l ih =>
    rw [foldl_cons, ih, sum_cons]
    omega

/-- Two slices one after the other. -/
theorem Fitting.trans {left : StreamLimits} {asked₀ asked₁ rest : List TopicRequest}
    {replies replies' : List Reply} (F : Fitting server limits asked₀ asked₁ replies)
    (G : Fitting server left asked₁ rest replies')
    (hbytes : left.bytes = limits.bytes - server.codec.frameBytes (replies.map Reply.message))
    (hmessages : left.messages = limits.messages - replies.length) :
    Fitting server limits asked₀ rest (replies ++ replies') := by
  have hb := F.bytes
  have hm := F.messages
  have hb' := G.bytes
  have hm' := G.messages
  refine ⟨?_, ?_, ?_, fun t => ?_, fun e he => F.kept e (G.kept e he)⟩
  · rw [map_append, frameBytes_append]
    omega
  · rw [length_append]
    omega
  · intro r hr
    exact (mem_append.1 hr).elim (F.carried r) (G.carried r)
  · have h₀ := F.once t
    have h₁ := G.once t
    rw [answersTo_append]
    omega

/-- **One slice of a stream** keeps the invariant and, while requests are left, ends at an unfinished plan. -/
theorem nextSlice_post (hsize : limits.bytes < usizeSize) (hcount : limits.messages < usizeSize)
    (hplans : server.PlansValid) (I : SlicesInv server limits session st) :
    Post (server.nextSlice granted st)
      (fun st' => SlicesInv server limits session st' ∧ (st'.session.requests ≠ ∅ → st.calls < st'.calls))
        (fun _ => False) := by
  have hb : st.remaining.bytes < usizeSize := by rw [I.bytes]; omega
  have hm : st.remaining.messages < usizeSize := by rw [I.messages]; omega
  unfold Server.nextSlice
  refine (finishSlice_post hb hm hplans I.reserved).bind fun slice S => ?_
  rw [mapM_framed S.fitting.carried, ok_bind]
  refine Post.pure ⟨?_, fun hne => (S.unfinished hne).1⟩
  have hsum : (slice.responses.map fun r => server.codec.serializedSize r.message + 4).sum =
      server.codec.frameBytes (slice.responses.map Reply.message) := by
    rw [WireCodec.frameBytes, List.map_map]
    rfl
  have hbytes := S.fitting.bytes
  have hmessages := S.fitting.messages
  refine ⟨I.fitting.trans S.fitting I.bytes I.messages, ?_, ?_, ?_, fun hne _ => (S.unfinished hne).2⟩
  · rw [map_append, frameBytes_append]
    dsimp only
    rw [foldl_sub, hsum, I.bytes]
    omega
  · rw [length_append]
    dsimp only
    rw [I.messages]
    omega
  · refine (reservedFits_iff ?_ S.plain).2 ⟨by simp, ?_, ?_⟩
    · dsimp only
      rw [foldl_sub]
      omega
    · simp only [length_nil, Nat.zero_add]
      omega
    · simp only [map_nil, frameBytes_nil, Nat.zero_add]
      rw [foldl_sub, hsum]
      omega

/-- **Any number of slices.** Each one that leaves requests took a call of the planner. -/
theorem serveSlices_post (hsize : limits.bytes < usizeSize) (hcount : limits.messages < usizeSize)
    (hplans : server.PlansValid) (I : SlicesInv server limits session st) :
    Post (server.serveSlices granted n st)
      (fun st' => SlicesInv server limits session st' ∧ (st'.session.requests ≠ ∅ → st.calls + n ≤ st'.calls))
        (fun _ => False) := by
  induction n generalizing st with
  | zero => exact Post.ok ⟨I, fun _ => Nat.le_refl _⟩
  | succ n ih =>
    unfold Server.serveSlices
    refine (nextSlice_post hsize hcount hplans I).bind fun st₁ h₁ => ?_
    obtain ⟨J, hlt⟩ := h₁
    split
    · rename_i hempty
      exact Post.pure ⟨J, fun hne => absurd (ExtTreeMap.isEmpty_iff.1 hempty) hne⟩
    · rename_i hempty
      have hstep : st.calls < st₁.calls := hlt fun h => hempty (ExtTreeMap.isEmpty_iff.2 h)
      refine (ih J).mono (fun st' hst' => ⟨hst'.1, fun hne => ?_⟩) fun _ h => h
      have := hst'.2 hne
      omega

/-- What became of the requests of a session: each is answered once, or left as it was and not answered. -/
structure AnsweredOnce (session : SyncSession) (st : Server.Slices) : Prop where
  asked : ∀ t request, session.requests[t]? = some request →
    (st.session.requests[t]? = none ∧ answersTo t st.responses = 1) ∨
    (st.session.requests[t]? = some request ∧ answersTo t st.responses = 0)
  other : ∀ t, session.requests[t]? = none → st.session.requests[t]? = none ∧ answersTo t st.responses = 0

theorem SlicesInv.answeredOnce (I : SlicesInv server limits session st) : AnsweredOnce session st := by
  have honce := I.fitting.once
  simp only [asked_toList] at honce
  constructor
  · intro t request hget
    have h := honce t
    rw [hget] at h
    cases hleft : st.session.requests[t]? with
    | none =>
      rw [hleft] at h
      exact Or.inl ⟨rfl, h⟩
    | some request' =>
      have hkept := I.fitting.kept (t, request') (mem_toList_iff_getElem?_eq_some.2 hleft)
      rw [mem_toList_iff_getElem?_eq_some, hget] at hkept
      rw [hleft] at h
      exact Or.inr ⟨hkept.symm, Nat.succ_injective h⟩
  · intro t hget
    have h := honce t
    rw [hget] at h
    have hzero := Nat.add_eq_zero_iff.1 h
    cases hleft : st.session.requests[t]? with
    | none => exact ⟨rfl, hzero.1⟩
    | some request =>
      rw [hleft] at hzero
      cases hzero.2

/-- **Served replies fit their stream.** Where the kept messages fit the limits with an empty page result for each
request, no slice fails, whatever the planner answers: no count underflows, no share is divided by zero and the
last check passes. After any number of slices their replies fit the limits of the stream, and every request has
one answer or waits for the next slice without one. Once the planner finishes its plans, no request waits. -/
theorem serveSlices_fit (server : Server) (session : SyncSession) (limits : StreamLimits) (granted : ℕ)
    (hsize : limits.bytes < usizeSize) (hcount : limits.messages < usizeSize) (hplans : server.PlansValid)
    (hfit : server.reservedFits session limits = .ok ()) :
    (∀ n, ∃ st, server.serveSlices granted n { session := session, remaining := limits } = .ok st ∧
      streamFits server.codec (st.responses.map Reply.message) limits = .ok () ∧ AnsweredOnce session st) ∧
    ∀ calls, (∀ i ≥ calls, ∀ t request budget page, server.plan i t request budget = .ok page →
      ¬ page.Unfinished) → ∀ n > calls, ∃ st, server.serveSlices granted n
        { session := session, remaining := limits } = .ok st ∧ st.session.requests = ∅ := by
  have hstart : SlicesInv server limits session { session := session, remaining := limits } := by
    obtain ⟨controls, hcontrols, -⟩ := controlReplies_ok server session
    obtain ⟨-, hmessages, hbytes⟩ := (reservedFits_iff hsize hcontrols).1 hfit
    refine ⟨⟨?_, ?_, by simp, fun t => by simp [answersTo], fun _ he => he⟩, rfl, rfl, hfit,
      fun _ h => absurd rfl h⟩
    · simp only [map_nil, frameBytes_nil]
      omega
    · simp only [length_nil]
      omega
  have hrun : ∀ n, ∃ st, server.serveSlices granted n { session := session, remaining := limits } = .ok st ∧
      SlicesInv server limits session st ∧ (st.session.requests ≠ ∅ → 0 + n ≤ st.calls) := fun n =>
    (serveSlices_post hsize hcount hplans hstart).total
  constructor
  · intro n
    obtain ⟨st, hst, I, -⟩ := hrun n
    refine ⟨st, hst, (streamFits_iff hsize).2 ⟨?_, ?_, ?_⟩, I.answeredOnce⟩
    · intro m hm
      obtain ⟨r, hr, rfl⟩ := List.mem_map.1 hm
      exact I.fitting.carried r hr
    · have := I.fitting.messages
      rw [length_map]
      omega
    · have := I.fitting.bytes
      omega
  · intro calls hfinish n hn
    obtain ⟨st, hst, I, hcalls⟩ := hrun n
    refine ⟨st, hst, ?_⟩
    by_contra hne
    -- the last call came after the planner was done, and yet left a plan unfinished
    have hlast := hcalls hne
    obtain ⟨t, request, budget, page, hplan, hunfinished⟩ := I.unfinished hne (by omega)
    exact hfinish (st.calls - 1) (by omega) t request budget page hplan hunfinished

/-- A planner that needs a second slice for a page of one operation. -/
def twoSliceServer : Server where
  codec := WireCodec.byteCodec
  opSize := 1
  applySyncAcks acks := acks.map fun _ => true
  plan i _ _ _ :=
    if i = 0 then .ok ⟨[], true, ∅, ∅, true, by simp, by simp⟩
    else .ok ⟨[tableOp 1 1 1 none [] 0 (.event ⟨"", []⟩)], false, ∅, ∅, false, by simp, by simp⟩

/-- A request for everything of a topic. -/
def wholeRequest (t : TopicId) : SyncRequest := ⟨t, ∅, ∅, [], none, {}, {}⟩

/-- A session with two requests. -/
def twoRequests : SyncSession :=
  .waiting (IdType.ofNat 9)
    [(IdType.ofNat 1, wholeRequest (IdType.ofNat 1)), (IdType.ofNat 2, wholeRequest (IdType.ofNat 2))]

/-- Two requests are answered in two slices. -/
theorem serveSlices_fit_two :
    ∃ st, twoSliceServer.serveSlices (2 ^ 30) 2 { session := twoRequests, remaining := ⟨200, 10, 10⟩ } = .ok st ∧
      st.session.requests = ∅ := by
  refine (serveSlices_fit twoSliceServer twoRequests ⟨200, 10, 10⟩ (2 ^ 30) (by decide)
    (by decide) ?_ (by decide +kernel)).2 1 ?_ 2 (by decide)
  · intro i t request budget page hplan op hop
    simp only [twoSliceServer] at hplan
    split at hplan
    · cases hplan
      simp at hop
    · cases hplan
      rw [mem_singleton.1 hop]
      decide +kernel
  · intro i hi t request budget page hplan hunfinished
    simp only [twoSliceServer] at hplan
    rw [if_neg (by omega)] at hplan
    cases hplan
    exact absurd hunfinished.1 (by decide)

end Slices

end Irokle
