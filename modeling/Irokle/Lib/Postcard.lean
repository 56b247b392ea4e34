import Irokle.Lib.Radix

/-!
# The postcard wire format

The parts of the format that stored records use: base-128 integers of a bounded number of bytes,
single bytes, 32-byte arrays and sequences with their length in front. A reader takes what it
needs from the front of the bytes and leaves the rest.

* `takeVarint_putVarint`, `takeArray_putArray`, `takeMany_putMany` — what was written is read back, whatever
  follows.
-/

namespace Irokle

open List

namespace Postcard

/-- A string of bytes. -/
abbrev Bytes := List UInt8

variable {n k limbs last : ℕ} {rest : Bytes}

/-! ## Integers -/

/-- Read an integer of at most `limbs` bytes, the last possible one at most `last`. -/
def takeVarint (last : ℕ) : ℕ → Bytes → Option (ℕ × Bytes)
  | 0, _ => none
  | _ + 1, [] => none
  | limbs + 1, b :: rest =>
    if b.toNat < 128 then
      if limbs = 0 ∧ last < b.toNat then none else some (b.toNat, rest)
    else (takeVarint last limbs rest).map fun e => (b.toNat - 128 + 128 * e.1, e.2)

/-- Write an integer in at most `limbs` bytes. -/
def putVarint : ℕ → ℕ → Bytes
  | 0, _ => []
  | limbs + 1, n => if n < 128 then [UInt8.ofNat n] else UInt8.ofNat (n % 128 + 128) :: putVarint limbs (n / 128)

theorem toNat_ofNat_lt (h : n < 256) : (UInt8.ofNat n).toNat = n := by
  rw [UInt8.toNat_ofNat']
  exact Nat.mod_eq_of_lt h

theorem pow_succ_mul_seven (k : ℕ) : 2 ^ (7 * (k + 1)) = 2 ^ (7 * k) * 128 := by
  rw [Nat.mul_succ, pow_add]
  norm_num

/-- **An integer is read back.** -/
theorem takeVarint_putVarint (hlast : last < 128) (hn : n < 2 ^ (7 * limbs) * (last + 1)) :
    takeVarint last (limbs + 1) (putVarint (limbs + 1) n ++ rest) = some (n, rest) := by
  induction limbs generalizing n with
  | zero =>
    have hle : n ≤ last := by simpa using Nat.lt_succ_iff.1 (by simpa using hn)
    have hsmall : n < 128 := by omega
    rw [putVarint, if_pos hsmall, singleton_append, takeVarint, toNat_ofNat_lt (by omega), if_pos hsmall]
    rw [if_neg (by omega)]
  | succ limbs ih =>
    rw [putVarint]
    split
    · rename_i hsmall
      rw [singleton_append, takeVarint, toNat_ofNat_lt (by omega), if_pos hsmall, if_neg (by omega)]
    · rename_i hbig
      have hrest : n / 128 < 2 ^ (7 * limbs) * (last + 1) := by
        rw [Nat.div_lt_iff_lt_mul (by decide)]
        have hpow : 2 ^ (7 * (limbs + 1)) = 2 ^ (7 * limbs) * 128 := pow_succ_mul_seven limbs
        rw [hpow] at hn
        calc n < 2 ^ (7 * limbs) * 128 * (last + 1) := hn
          _ = 2 ^ (7 * limbs) * (last + 1) * 128 := by ring
      rw [cons_append, takeVarint, toNat_ofNat_lt (by omega), if_neg (by omega), ih hrest]
      simp only [Option.map_some, Option.some.injEq, Prod.mk.injEq, and_true]
      omega

/-- An integer that is read fits its type. -/
theorem takeVarint_lt {bytes : Bytes} (h : takeVarint last (limbs + 1) bytes = some (n, rest)) :
    n < 2 ^ (7 * limbs) * (last + 1) := by
  induction limbs generalizing n bytes with
  | zero =>
    cases bytes with
    | nil => cases h
    | cons b bytes =>
      rw [takeVarint] at h
      split at h
      · split at h
        · cases h
        · cases h
          simp
          omega
      · simp [takeVarint] at h
  | succ limbs ih =>
    have hpow : 2 ^ (7 * (limbs + 1)) = 2 ^ (7 * limbs) * 128 := pow_succ_mul_seven limbs
    have hpos : 0 < 2 ^ (7 * limbs) := Nat.two_pow_pos _
    cases bytes with
    | nil => cases h
    | cons b bytes =>
      rw [takeVarint] at h
      split at h
      · rename_i hsmall
        rw [if_neg (by omega)] at h
        cases h
        rw [hpow]
        nlinarith
      · obtain ⟨⟨m, rest'⟩, hm, heq⟩ := Option.map_eq_some_iff.1 h
        cases heq
        have hlt := ih hm
        have hb : b.toNat < 256 := b.toNat_lt
        calc b.toNat - 128 + 128 * m < 128 * (m + 1) := by omega
          _ ≤ 128 * (2 ^ (7 * limbs) * (last + 1)) := Nat.mul_le_mul_left 128 hlt
          _ = 2 ^ (7 * (limbs + 1)) * (last + 1) := by rw [hpow]; ring

/-- `u16`, in at most three bytes. -/
def takeU16 (bytes : Bytes) : Option (ℕ × Bytes) := takeVarint 3 3 bytes

/-- Write a `u16`. -/
def putU16 (n : ℕ) : Bytes := putVarint 3 n

/-- The index of an enum variant is a `u32`, in at most five bytes. -/
def takeU32 (bytes : Bytes) : Option (ℕ × Bytes) := takeVarint 15 5 bytes

/-- Write a `u32`. -/
def putU32 (n : ℕ) : Bytes := putVarint 5 n

/-- `u64` and `usize`, in at most ten bytes. -/
def takeU64 (bytes : Bytes) : Option (ℕ × Bytes) := takeVarint 1 10 bytes

/-- Write a `u64`. -/
def putU64 (n : ℕ) : Bytes := putVarint 10 n

@[simp] theorem takeU16_putU16 (h : n < 2 ^ 16) : takeU16 (putU16 n ++ rest) = some (n, rest) :=
  takeVarint_putVarint (by decide) (Nat.lt_of_lt_of_le h (by decide))

@[simp] theorem takeU32_putU32 (h : n < 2 ^ 32) : takeU32 (putU32 n ++ rest) = some (n, rest) :=
  takeVarint_putVarint (by decide) (Nat.lt_of_lt_of_le h (by decide))

@[simp] theorem takeU64_putU64 (h : n < 2 ^ 64) : takeU64 (putU64 n ++ rest) = some (n, rest) :=
  takeVarint_putVarint (by decide) (Nat.lt_of_lt_of_le h (by decide))

theorem takeU64_lt {bytes : Bytes} (h : takeU64 bytes = some (n, rest)) : n < 2 ^ 64 :=
  Nat.lt_of_lt_of_le (takeVarint_lt h) (by decide)

/-! ## Bytes -/

/-- A `u8`. -/
def takeU8 : Bytes → Option (ℕ × Bytes)
  | [] => none
  | b :: rest => some (b.toNat, rest)

/-- Write a `u8`. -/
def putU8 (n : ℕ) : Bytes := [UInt8.ofNat n]

@[simp] theorem takeU8_putU8 (h : n < 256) : takeU8 (putU8 n ++ rest) = some (n, rest) := by
  simp [takeU8, putU8, Nat.mod_eq_of_lt h]

/-- A 32-byte array is the number its bytes form, the most significant one first. -/
def arrayOf (bytes : Bytes) : Fin (2 ^ 256) := Fin.ofNat _ (bytes.foldl (fun n b => 256 * n + b.toNat) 0)

/-- Read a 32-byte array. -/
def takeArray (bytes : Bytes) : Option (Fin (2 ^ 256) × Bytes) :=
  if 32 ≤ bytes.length then some (arrayOf (bytes.take 32), bytes.drop 32) else none

/-- Write a 32-byte array. -/
def putArray (x : Fin (2 ^ 256)) : Bytes := (List.range 32).map fun i => UInt8.ofNat (Radix.digit 256 32 x.val i)

@[simp] theorem length_putArray (x : Fin (2 ^ 256)) : (putArray x).length = 32 := by simp [putArray]

/-- The first digits of a number, put together again. -/
theorem foldl_digits {x : ℕ} (hx : x < 256 ^ 32) (hk : k ≤ 32) :
    ((List.range k).map fun i => UInt8.ofNat (Radix.digit 256 32 x i)).foldl (fun n b => 256 * n + b.toNat) 0 =
      Radix.lead 256 32 x k := by
  induction k with
  | zero => exact (Nat.div_eq_of_lt hx).symm
  | succ k ih =>
    have hdigit : (UInt8.ofNat (Radix.digit 256 32 x k)).toNat = Radix.lead 256 32 x (k + 1) % 256 :=
      toNat_ofNat_lt (Nat.mod_lt _ (by decide))
    rw [range_succ, map_append, foldl_append, ih (by omega), map_singleton, foldl_cons, foldl_nil,
      hdigit, ← Radix.lead_succ_div (by omega)]
    exact Nat.div_add_mod _ _

theorem arrayOf_putArray (x : Fin (2 ^ 256)) : arrayOf (putArray x) = x := by
  have hfold := foldl_digits (x := x.val) (Nat.lt_of_lt_of_le x.isLt (by decide)) (le_refl 32)
  refine Fin.ext ?_
  rw [arrayOf, putArray, hfold]
  simp [Radix.lead]

/-- **An array is read back.** -/
@[simp] theorem takeArray_putArray (x : Fin (2 ^ 256)) : takeArray (putArray x ++ rest) = some (x, rest) := by
  have hlen := length_putArray x
  unfold takeArray
  rw [if_pos (by simp [hlen]), take_left' hlen, drop_left' hlen, arrayOf_putArray]

/-! ## Sequences of arrays -/

/-- Read as many arrays as were counted. -/
def takeMany : ℕ → Bytes → Option (List (Fin (2 ^ 256)) × Bytes)
  | 0, bytes => some ([], bytes)
  | count + 1, bytes => (takeArray bytes).bind fun e => (takeMany count e.2).map fun e' => (e.1 :: e'.1, e'.2)

/-- Write arrays one after another. -/
def putMany (xs : List (Fin (2 ^ 256))) : Bytes := xs.flatMap putArray

@[simp] theorem takeMany_putMany (xs : List (Fin (2 ^ 256))) :
    takeMany xs.length (putMany xs ++ rest) = some (xs, rest) := by
  induction xs with
  | nil => rfl
  | cons x xs ih =>
    have hcons : putMany (x :: xs) ++ rest = putArray x ++ (putMany xs ++ rest) := by simp [putMany]
    rw [hcons, length_cons, takeMany, takeArray_putArray, Option.bind_some, ih]
    rfl

/-- As many arrays as fit are taken. -/
theorem takeMany_eq (count : ℕ) (bytes : Bytes) : takeMany count bytes =
    if count * 32 ≤ bytes.length then
      some ((List.range count).map fun i => arrayOf ((bytes.drop (32 * i)).take 32), bytes.drop (count * 32))
    else none := by
  induction count generalizing bytes with
  | zero => simp [takeMany]
  | succ count ih =>
    rw [takeMany, takeArray]
    by_cases hlen : 32 ≤ bytes.length
    · rw [if_pos hlen, Option.bind_some, ih]
      simp only [length_drop, drop_drop]
      by_cases hcount : (count + 1) * 32 ≤ bytes.length
      · rw [if_pos (by omega), if_pos hcount]
        simp only [Option.map_some, Option.some.injEq, Prod.mk.injEq]
        refine ⟨?_, by congr 1; omega⟩
        rw [range_succ_eq_map, map_cons, map_map]
        simp only [Nat.mul_zero, drop_zero, List.cons.injEq, true_and]
        refine map_congr_left fun i _ => ?_
        simp only [Function.comp_apply]
        congr 2
        congr 1
        omega
      · rw [if_neg (by omega), if_neg hcount]
        rfl
    · rw [if_neg hlen, if_neg (by omega)]
      rfl

end Postcard

end Irokle
