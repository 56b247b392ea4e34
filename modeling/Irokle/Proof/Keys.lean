import Irokle.Spec.Keys

/-!
# The key schema confuses no records

An id may start with any byte, so the key of an op can start like the tag of another family. What keeps
the families apart is the length of the keys: two families of one length have tags of which neither
extends the other, and a scan that starts with the tag of another family is longer than its keys or checks
the length. Each such fact is about the table of tags and layouts only, and evaluated.

* `Record.family_eq`, `Record.key_injective` — the key determines the record;
* `Record.scan_iff` — a scan reads exactly the records that share the given fields;
* `keys_apart` — the whole schema, with its ranges and `copied_record`.
-/

namespace Irokle.Fjall

open Keys List

variable {r s : Record} {k : ℕ} {f g : Family} {check : Check}

/-! ## Fields -/

theorem Field.number_lt (f : Field) (v : f.Value) : f.number v < 256 ^ f.width := by
  cases f with
  | id k => exact lt_of_lt_of_le v.bytes.isLt (show 2 ^ 256 ≤ 256 ^ 32 by decide +kernel)
  | hash => exact lt_of_lt_of_le (Fin.isLt v) (show 2 ^ 256 ≤ 256 ^ 32 by decide +kernel)
  | seq => exact lt_of_lt_of_le (Fin.isLt v) (show 2 ^ 64 ≤ 256 ^ 8 by decide)
  | slot => exact lt_of_lt_of_le (Fin.isLt v) (show 2 ^ 32 ≤ 256 ^ 4 by decide)
  | kind => cases v <;> decide

theorem Field.number_injective (f : Field) : Function.Injective f.number := by
  intro v w h
  cases f with
  | id k => exact IdType.bytes_injective (Fin.ext h)
  | hash | seq | slot => exact Fin.ext h
  | kind => cases v <;> cases w <;> first | rfl | exact absurd h (by decide)

theorem Field.be_inj {f : Field} {v w : f.Value} (h : be f.width (f.number v) = be f.width (f.number w)) :
    v = w :=
  f.number_injective (Keys.be_inj (f.number_lt v) (f.number_lt w) h)

theorem Fields.length_parts {fs : List Field} (vs : Fields fs) :
    vs.parts.map List.length = fs.map Field.width := by
  induction vs with
  | nil => rfl
  | cons v vs ih => rw [Fields.parts, map_cons, map_cons, length_be, ih]

theorem Fields.parts_injective {fs : List Field} (vs ws : Fields fs) (h : vs.parts = ws.parts) : vs = ws := by
  induction vs with
  | nil => cases ws; rfl
  | cons v vs ih =>
    cases ws with
    | cons w ws =>
      rw [Fields.parts, Fields.parts, List.cons.injEq] at h
      rw [Field.be_inj h.1, ih ws h.2]

/-! ## The table of families -/

/-- The families, in the order of the table. -/
def Family.all : List Family := (List.range 44).map .ofNat

theorem Family.mem_all (f : Family) : f ∈ Family.all := by
  cases f <;> decide

/-- The length of the keys of a family up to field number `k`; no layout has more than three fields. -/
def Family.keyLen (f : Family) (k : ℕ) : ℕ := f.tag.length + ((f.layout.map Field.width).take k).sum

/-- Neither tag extends the other. -/
def Family.apart (f g : Family) : Bool :=
  !(bytes f.tag).isPrefixOf (bytes g.tag) && !(bytes g.tag).isPrefixOf (bytes f.tag)

/-- What a check says of the keys of a family. -/
def Check.keeps : Check → Family → Bool
  | .none, _ => true
  | .length n, g => g.keyLen 3 == n
  | .notOp, g => g != .op

/-- A scan meets no key of another family: its tag differs, its keys are too short, or the check leaves them
out. -/
def Family.sound (f : Family) (k : ℕ) (check : Check) : Bool :=
  check.keeps f && Family.all.all fun g => g == f || f.apart g ||
    decide (g.keyLen 3 < f.keyLen k) || !check.keeps g

theorem Family.apart_or_keyLen (f g : Family) : f = g ∨ f.apart g = true ∨ f.keyLen 3 ≠ g.keyLen 3 := by
  have table : ∀ f ∈ Family.all, ∀ g ∈ Family.all, f = g ∨ f.apart g = true ∨ f.keyLen 3 ≠ g.keyLen 3 := by
    decide +kernel
  exact table f f.mem_all g g.mem_all

theorem scans_sound : ∀ e ∈ scans, e.1.sound e.2.1 e.2.2 = true := by decide +kernel

theorem Family.apart_elim {key : Key} (h : f.apart g = true) (hf : bytes f.tag <+: key)
    (hg : bytes g.tag <+: key) : False := by
  unfold Family.apart at h
  rw [Bool.and_eq_true, Bool.not_eq_true', Bool.not_eq_true'] at h
  rcases prefix_or_prefix_of_prefix hf hg with h' | h'
  · rw [List.isPrefixOf_iff_prefix.2 h'] at h
    cases h.1
  · rw [List.isPrefixOf_iff_prefix.2 h'] at h
    cases h.2

/-! ## Keys and prefix scans -/

theorem Record.scan_three (r : Record) : r.scan 3 = r.key := by
  have hlayout : r.family.layout.length ≤ 3 := by cases r.family <;> decide
  have hlen := congrArg List.length r.fields.length_parts
  rw [length_map, length_map] at hlen
  rw [Record.scan, Record.key, take_of_length_le (by omega)]

theorem Record.length_scan (r : Record) (k : ℕ) : (r.scan k).length = r.family.keyLen k := by
  rw [Record.scan, Family.keyLen, length_append, length_flatten, map_take, r.fields.length_parts, bytes,
    length_map]

theorem Record.length_key (r : Record) : r.key.length = r.family.keyLen 3 := by
  rw [← r.scan_three, r.length_scan]

theorem Record.tag_isPrefix (r : Record) : bytes r.family.tag <+: r.key := prefix_append _ _

/-- **The tag and the length of a key name its family.** -/
theorem Record.family_eq (htag : bytes f.tag <+: r.key) (hlen : r.key.length = f.keyLen 3) : r.family = f := by
  rcases r.family.apart_or_keyLen f with h | h | h
  · exact h
  · exact (Family.apart_elim h r.tag_isPrefix htag).elim
  · exact absurd (r.length_key.symm.trans hlen) h

theorem Record.key_injective : Function.Injective Record.key := by
  rintro r s h
  have hfamily : r.family = s.family := Record.family_eq (h ▸ s.tag_isPrefix) (h ▸ s.length_key)
  obtain ⟨f, vs⟩ := r
  obtain ⟨g, ws⟩ := s
  subst hfamily
  have hflat : vs.parts.flatten = ws.parts.flatten := append_cancel_left h
  have hparts := eq_iff_flatten_eq.2 ⟨hflat, vs.length_parts.trans ws.length_parts.symm⟩
  rw [Fields.parts_injective vs ws hparts]

theorem isOpKey_iff : isOpKey r.key = true ↔ r.family = .op := by
  rw [isOpKey, Bool.and_eq_true, beq_iff_eq, isPrefixOf_iff_prefix]
  refine ⟨fun h => Record.family_eq h.2 h.1, fun h => ⟨?_, ?_⟩⟩
  · rw [r.length_key, h]
    rfl
  · have := r.tag_isPrefix
    rwa [h] at this

theorem Check.keep_key (check : Check) (r : Record) : check.keep r.key = check.keeps r.family := by
  cases check with
  | none => rfl
  | length n => rw [keep, keeps, r.length_key]
  | notOp =>
    rw [keep, keeps, Bool.eq_iff_iff]
    simp [isOpKey_iff, ← Bool.not_eq_true]

/-- **A scan reads exactly the records of its family that share the given fields.** -/
theorem Record.scan_iff (h : s.family.sound k check = true) : s.scan k <+: r.key ∧ check.keep r.key = true ↔
    r.family = s.family ∧ r.fields.parts.take k = s.fields.parts.take k := by
  rw [Family.sound, Bool.and_eq_true, all_eq_true] at h
  rw [check.keep_key]
  constructor
  · rintro ⟨hscan, hkeep⟩
    have hfamily : r.family = s.family := by
      have hg := h.2 r.family r.family.mem_all
      simp only [Bool.or_eq_true, beq_iff_eq, decide_eq_true_eq, Bool.not_eq_true', hkeep, Bool.true_eq_false,
        or_false] at hg
      rcases hg with (hg | hg) | hg
      · exact hg
      · exact (Family.apart_elim hg ((prefix_append _ _).trans hscan) r.tag_isPrefix).elim
      · have hle := hscan.length_le
        rw [s.length_scan, r.length_key] at hle
        omega
    have htag : bytes r.family.tag = bytes s.family.tag := by rw [hfamily]
    refine ⟨hfamily, take_eq_of_flatten ?_ ?_⟩
    · rw [s.fields.length_parts, r.fields.length_parts, hfamily]
    · rw [Record.scan, Record.key, htag] at hscan
      exact (prefix_append_right_inj _).1 hscan
  · rintro ⟨hfamily, hparts⟩
    have htag : bytes r.family.tag = bytes s.family.tag := by rw [hfamily]
    refine ⟨?_, hfamily ▸ h.1⟩
    rw [Record.scan, Record.key, htag, ← hparts, prefix_append_right_inj]
    exact (List.take_prefix k _).flatten

/-! ## Ranges -/

/-- The key that a range starts at. -/
def Start.key : Start → Key
  | .included a | .excluded a => a

theorem Start.le_of_admits {start : Start} {key : Key} (h : start.admits key) : start.key ≤ key := by
  cases start with
  | included a => exact h
  | excluded a => exact le_of_lt h

theorem Record.scan_zero (r : Record) : r.scan 0 = bytes r.family.tag := append_nil _

theorem Record.le_largest_iff {w : ℕ} (hsound : s.family.sound k .none = true)
    (hlen : s.family.keyLen 3 ≤ s.family.keyLen k + w) (h : s.scan k ≤ r.key) :
    r.key ≤ s.scan k ++ List.replicate w (Fin.last 255) ↔ s.scan k <+: r.key := by
  refine ⟨prefix_of_between h, fun hscan => ?_⟩
  have hfamily := ((Record.scan_iff hsound).1 ⟨hscan, rfl⟩).1
  have hkey := r.length_key
  obtain ⟨rest, hrest⟩ := hscan
  rw [← hrest, length_append, s.length_scan, hfamily] at hkey
  rw [← hrest]
  exact append_le_append.2 (le_replicate (by omega))

theorem ranges_sound : ∀ e ∈ ranges, e.1.sound e.2.1 e.2.2.1 = true := by decide +kernel

/-- **Behind its start, a range ends where its prefix ends.** -/
theorem ranges_stop : ∀ e ∈ ranges, ∀ s r : Record, s.family = e.1 → s.scan e.2.1 ≤ r.key →
    (e.2.2.2.admits (s.scan e.2.1) r.key ↔ s.scan e.2.1 <+: r.key) := by
  rintro ⟨f, k, check, stop⟩ he s r rfl hle
  have hsound := ranges_sound _ he
  simp only [ranges, mem_cons, Prod.mk.injEq, not_mem_nil, or_false] at he
  rcases he with ⟨hf, rfl, rfl, rfl⟩ | ⟨hf, rfl, rfl, rfl⟩ | ⟨hf, rfl, rfl, rfl⟩ | ⟨hf, rfl, rfl, rfl⟩
  · exact Record.le_largest_iff hsound (by rw [hf]; decide) hle
  · exact Record.le_largest_iff hsound (by rw [hf]; decide) hle
  · dsimp only at hle ⊢
    rw [s.scan_zero, hf] at hle ⊢
    exact lt_next_iff (p := bytes ['p']) rfl hle
  · dsimp only at hle ⊢
    rw [s.scan_zero, hf] at hle ⊢
    exact lt_next_iff (p := []) rfl hle

/-! ## Copied records -/

/-- The families an active topic keeps. -/
def copiedFamilies : List Family := [.op, .metadata, .child, .actorTip, .topicIndex, .clockNode, .actorIndex]

theorem copiedRecord_eq (key : Key) :
    copiedRecord key = true ↔ ∃ f ∈ copiedFamilies, bytes f.tag <+: key ∧ key.length = f.keyLen 3 := by
  simp only [copiedRecord, copiedFamilies, mem_cons, not_mem_nil, or_false, exists_or, exists_eq_left,
    Bool.or_eq_true, Bool.and_eq_true, beq_iff_eq, prefix_iff_eq_take, eq_comm (a := bytes _),
    or_and_right, or_assoc]
  rfl

theorem copiedRecord_iff : copiedRecord r.key = true ↔ r.family ∈ copiedFamilies := by
  rw [copiedRecord_eq]
  constructor
  · rintro ⟨f, hf, htag, hlen⟩
    rwa [Record.family_eq htag hlen]
  · exact fun h => ⟨r.family, h, r.tag_isPrefix, r.length_key⟩

/-- The keys that wait for the end of an upgrade. -/
theorem converted_iff :
    bytes ['z', 'm'] <+: r.key ↔ r.family = .convertedAck ∨ r.family = .convertedObligation := by
  have table : ∀ f ∈ Family.all, bytes ['z', 'm'] <+: bytes f.tag ∧
    (f = .convertedAck ∨ f = .convertedObligation) ∨
      ¬(bytes ['z', 'm'] <+: bytes f.tag) ∧ ¬(bytes f.tag <+: bytes ['z', 'm']) ∧ f ≠ .convertedAck ∧
      f ≠ .convertedObligation := by
    decide +kernel
  rcases table r.family r.family.mem_all with ⟨h, hf⟩ | ⟨h, h', hf⟩
  · exact ⟨fun _ => hf, fun _ => h.trans r.tag_isPrefix⟩
  · refine ⟨fun hz => ((List.prefix_or_prefix_of_prefix hz r.tag_isPrefix).elim h h').elim,
      fun hc => (hc.elim hf.1 hf.2).elim⟩

/-- **The key schema confuses no records**: keys are injective over all families, every scan and range reads
exactly the records it is meant for, and a namespace key is copied exactly when an active topic keeps its
record. -/
theorem keys_apart : Function.Injective Record.key ∧
    (∀ e ∈ scans, ∀ s r : Record, s.family = e.1 → (s.scan e.2.1 <+: r.key ∧ e.2.2.keep r.key = true ↔
      r.family = e.1 ∧ r.fields.parts.take e.2.1 = s.fields.parts.take e.2.1)) ∧
    (∀ r : Record, bytes ['z', 'm'] <+: r.key ↔ r.family = .convertedAck ∨ r.family = .convertedObligation) ∧
    (∀ e ∈ ranges, ∀ s r : Record, s.family = e.1 → ∀ start : Start, s.scan e.2.1 ≤ start.key →
      (start.admits r.key ∧ e.2.2.2.admits (s.scan e.2.1) r.key ∧ e.2.2.1.keep r.key = true ↔
        start.admits r.key ∧ r.family = e.1 ∧ r.fields.parts.take e.2.1 = s.fields.parts.take e.2.1)) ∧
    (∀ r : Record, isOpKey r.key = true ↔ r.family = .op) ∧
    ∀ r : Record, copiedRecord r.key = true ↔ r.family ∈ copiedFamilies := by
  refine ⟨Record.key_injective, fun e he s r hs => ?_, fun _ => converted_iff, fun e he s r hs start hstart => ?_,
    fun _ => isOpKey_iff, fun _ => copiedRecord_iff⟩
  · rw [← hs]
    exact Record.scan_iff (hs ▸ scans_sound e he)
  · refine and_congr_right fun hadmits => ?_
    rw [ranges_stop e he s r hs (hstart.trans (Start.le_of_admits hadmits)), ← hs]
    exact Record.scan_iff (hs ▸ ranges_sound e he)

end Irokle.Fjall
