import BitTorrentBits.Foundation.CInt
import BitTorrentBits.Foundation.Memory

/-!
# Big endian numbers

`big_endian.c`. The writer shifts an `unsigned long`; the reader shifts each byte as an
`int` and adds it to an `unsigned long`, so a top byte from 128 on is sign extended.
-/

namespace BitTorrentBits

/-- The low `bufSize` bytes of `n`, for a width of at most the 8 bytes of `n`. The answer
is always true. -/
def luToBigEndian (n : Nat) : Nat → Bool × List UInt8
  | 0 => (true, [])
  | bufSize + 1 => (true, UInt8.ofNat (n / 2 ^ (8 * bufSize)) :: (luToBigEndian n bufSize).2)

/-- The loop over the bytes that are left, with `n` collected so far. -/
def sumShifted : List UInt8 → Nat → Option Nat
  | [], n => some n
  | b :: bytes, n => do
    let shifted ← shiftLeftInt b (8 * bytes.length)
    sumShifted bytes (toULong (n + shifted))

/-- `none` is a read outside `buf`, or a shift by the width of `int` or more. -/
def bigEndianToLu (buf : List UInt8) (bufSize : Nat) : Option Nat := do
  sumShifted (← readAt buf 0 bufSize) 0

@[simp] theorem luToBigEndian_fst (n k : Nat) : (luToBigEndian n k).1 = true := by
  cases k <;> rfl

@[simp] theorem luToBigEndian_length (n k : Nat) : (luToBigEndian n k).2.length = k := by
  induction k with
  | zero => rfl
  | succ k ih => simp [luToBigEndian, ih]

theorem bigEndianToLu_eq_none {buf : List UInt8} {k : Nat} (h : buf.length < k) :
    bigEndianToLu buf k = none := by
  rw [bigEndianToLu, readAt_eq_none.mpr (by omega)]
  rfl

/-- The number that `bytes` write out in big endian, without a sign. -/
def bigEndianValue : List UInt8 → Nat
  | [] => 0
  | b :: bytes => b.toNat * 2 ^ (8 * bytes.length) + bigEndianValue bytes

theorem bigEndianValue_lt (bytes : List UInt8) :
    bigEndianValue bytes < 2 ^ (8 * bytes.length) := by
  induction bytes with
  | nil => simp [bigEndianValue]
  | cons b bytes ih =>
    have hb : b.toNat + 1 ≤ 2 ^ 8 := b.toNat_lt
    have hmul := Nat.mul_le_mul_right (2 ^ (8 * bytes.length)) hb
    rw [Nat.succ_mul, ← Nat.pow_add] at hmul
    rw [bigEndianValue, List.length_cons, Nat.mul_succ, Nat.add_comm (8 * bytes.length)]
    omega

theorem bigEndianValue_luToBigEndian (n k : Nat) :
    bigEndianValue (luToBigEndian n k).2 = n % 2 ^ (8 * k) := by
  induction k with
  | zero => simp [luToBigEndian, bigEndianValue, Nat.mod_one]
  | succ k ih =>
    rw [luToBigEndian, bigEndianValue, luToBigEndian_length, ih, UInt8.toNat_ofNat', Nat.mul_succ,
      Nat.pow_add, Nat.mod_mul, Nat.mul_comm, Nat.add_comm]

private theorem luToBigEndian_congr {m n k : Nat} (h : m % 2 ^ (8 * k) = n % 2 ^ (8 * k)) :
    (luToBigEndian m k).2 = (luToBigEndian n k).2 := by
  induction k with
  | zero => rfl
  | succ k ih =>
    rw [Nat.mul_succ, Nat.pow_add] at h
    have hlow : m % 2 ^ (8 * k) = n % 2 ^ (8 * k) := by
      rw [← Nat.mod_mul_right_mod m _ (2 ^ 8), h, Nat.mod_mul_right_mod]
    have htop : m / 2 ^ (8 * k) % 2 ^ 8 = n / 2 ^ (8 * k) % 2 ^ 8 := by
      rw [← Nat.mod_mul_right_div_self, h, Nat.mod_mul_right_div_self]
    have hbyte : UInt8.ofNat (m / 2 ^ (8 * k)) = UInt8.ofNat (n / 2 ^ (8 * k)) := by
      rw [← UInt8.toNat_inj, UInt8.toNat_ofNat', UInt8.toNat_ofNat', htop]
    rw [luToBigEndian, luToBigEndian, ih hlow, hbyte]

theorem luToBigEndian_bigEndianValue (bytes : List UInt8) :
    (luToBigEndian (bigEndianValue bytes) bytes.length).2 = bytes := by
  induction bytes with
  | nil => rfl
  | cons b bytes ih =>
    have hlt := bigEndianValue_lt bytes
    have hpos : 0 < 2 ^ (8 * bytes.length) := Nat.two_pow_pos _
    have htop : (b.toNat * 2 ^ (8 * bytes.length) + bigEndianValue bytes) / 2 ^ (8 * bytes.length) =
        b.toNat := by
      rw [Nat.mul_comm, Nat.mul_add_div hpos, Nat.div_eq_of_lt hlt, Nat.add_zero]
    have hlow : (b.toNat * 2 ^ (8 * bytes.length) + bigEndianValue bytes) % 2 ^ (8 * bytes.length) =
        bigEndianValue bytes % 2 ^ (8 * bytes.length) := Nat.mul_add_mod_self_right _ _ _
    rw [bigEndianValue, List.length_cons, luToBigEndian, htop, luToBigEndian_congr hlow, ih,
      UInt8.ofNat_toNat]

private theorem toInt_shifted_add {b n : Nat} (hb : b < 2 ^ 8) {j : Nat} (hj : j < 4)
    (hn : n < 2 ^ (8 * j)) :
    toInt (b * 2 ^ (8 * j) : Nat) + toInt n = toInt (b * 2 ^ (8 * j) + n : Nat) := by
  have hfit : b * 2 ^ (8 * j) + n < 2 ^ 32 := by interval_cases j <;> omega
  have hsign : b * 2 ^ (8 * j) < 2 ^ 31 ↔ b * 2 ^ (8 * j) + n < 2 ^ 31 := by
    interval_cases j <;> omega
  have hlow : n < 2 ^ 31 := by interval_cases j <;> omega
  rw [toInt_natCast hlow]
  generalize b * 2 ^ (8 * j) = high at hfit hsign
  simp only [toInt]
  split <;> split <;> omega

private theorem sumShifted_eq {bytes : List UInt8} (h : bytes.length ≤ 4) (a : Nat) :
    ∃ v, sumShifted bytes a = some v ∧
      (toULong a = a → v = toULong (a + toInt (bigEndianValue bytes))) := by
  induction bytes generalizing a with
  | nil => exact ⟨a, rfl, fun ha => by simpa [bigEndianValue, toInt] using ha.symm⟩
  | cons b bytes ih =>
    rw [List.length_cons] at h
    obtain ⟨v, hv, hval⟩ := ih (by omega) (toULong (a + toInt (b.toNat * 2 ^ (8 * bytes.length) : Nat)))
    refine ⟨v, ?_, ?_⟩
    · rw [sumShifted, shiftLeftInt, if_pos (by omega)]
      exact hv
    · intro _
      rw [hval (toULong_toULong _), toULong_add_toULong, bigEndianValue,
        ← toInt_shifted_add b.toNat_lt (by omega) (bigEndianValue_lt bytes), add_assoc]

theorem bigEndianToLu_append {bytes : List UInt8} (rest : List UInt8) (h : bytes.length ≤ 4) :
    bigEndianToLu (bytes ++ rest) bytes.length =
      some (toULong (toInt (bigEndianValue bytes))) := by
  have hread : readAt (bytes ++ rest) 0 bytes.length = some bytes := readAt_middle [] bytes rest
  obtain ⟨v, hv, hval⟩ := sumShifted_eq h 0
  rw [bigEndianToLu, hread]
  refine hv.trans (congrArg some ?_)
  rw [hval rfl, Nat.cast_zero, zero_add]

theorem bigEndianToLu_four {bytes : List UInt8} (rest : List UInt8) (h : bytes.length = 4) :
    bigEndianToLu (bytes ++ rest) 4 = some (toULong (toInt (bigEndianValue bytes))) := by
  have hread := bigEndianToLu_append rest (Nat.le_of_eq h)
  rwa [h] at hread

theorem bigEndianToLu_take {buf : List UInt8} (h : 4 ≤ buf.length) :
    bigEndianToLu buf 4 = some (toULong (toInt (bigEndianValue (buf.take 4)))) := by
  have hfour := bigEndianToLu_four (buf.drop 4) (List.length_take_of_le h)
  rwa [List.take_append_drop] at hfour

theorem bigEndianToLu_luToBigEndian {n k : Nat} (rest : List UInt8) (hk : k ≤ 4)
    (hn : n < 2 ^ 31) (hfit : n < 2 ^ (8 * k)) :
    bigEndianToLu ((luToBigEndian n k).2 ++ rest) k = some n := by
  have hlen := luToBigEndian_length n k
  have hread := bigEndianToLu_append rest (hlen.trans_le hk)
  rw [hlen, bigEndianValue_luToBigEndian, Nat.mod_eq_of_lt hfit, toULong_toInt_of_lt hn] at hread
  exact hread

theorem bigEndianToLu_isSome {buf : List UInt8} {k : Nat} (hk : k ≤ 4) (h : k ≤ buf.length) :
    ∃ v, bigEndianToLu buf k = some v := by
  have hlen : (buf.take k).length = k := List.length_take_of_le h
  have hread := bigEndianToLu_append (buf.drop k) (hlen.trans_le hk)
  rw [List.take_append_drop, hlen] at hread
  exact ⟨_, hread⟩

theorem bigEndianValue_take_lt (buf : List UInt8) : bigEndianValue (buf.take 4) < 2 ^ 32 := by
  have hlt := bigEndianValue_lt (buf.take 4)
  have hlen : (buf.take 4).length ≤ 4 := List.length_take_le _ _
  exact hlt.trans_le (Nat.pow_le_pow_right (by decide) (by omega))

private theorem toULong_toInt_mod {n j : Nat} (hj : j ≤ 4) :
    toULong (toInt n) % 2 ^ (8 * j) = n % 2 ^ (8 * j) := by
  interval_cases j <;> simp only [toULong, toInt] <;> split <;> omega

theorem bigEndianToLu_wide {buf : List UInt8} (h : 5 ≤ buf.length) :
    bigEndianToLu buf buf.length = none := by
  have hread : readAt buf 0 buf.length = some buf := by
    simpa using readAt_middle [] buf []
  cases buf with
  | nil => contradiction
  | cons b bytes =>
    rw [List.length_cons] at h
    have hshift : shiftLeftInt b (8 * bytes.length) = none := if_neg (by omega)
    rw [bigEndianToLu, hread]
    simp only [Option.bind_eq_bind, Option.bind_some, sumShifted, hshift, Option.bind_none]

/-- The reader gives back the number that the writer wrote. -/
def ReadsBack (n k : Nat) : Prop := bigEndianToLu (luToBigEndian n k).2 k = some n

/-- The writer gives back the bytes whose number the reader read. -/
def WritesBack (buf : List UInt8) : Prop :=
  ∃ n, bigEndianToLu buf buf.length = some n ∧ luToBigEndian n buf.length = (true, buf)

private theorem readsBack_iff {n k : Nat} (hn : n < 2 ^ (8 * k)) :
    ReadsBack n k ↔ k ≤ 4 ∧ n < 2 ^ 31 := by
  have hlen := luToBigEndian_length n k
  by_cases hk : k ≤ 4
  · have hread := bigEndianToLu_append [] (hlen.trans_le hk)
    rw [List.append_nil, hlen, bigEndianValue_luToBigEndian, Nat.mod_eq_of_lt hn] at hread
    have hfit : n < 2 ^ 32 := hn.trans_le (Nat.pow_le_pow_right (by decide) (by omega))
    rw [ReadsBack, hread, Option.some.injEq]
    rcases toULong_toInt_cases hfit with ⟨hlow, heq⟩ | ⟨hhigh, heq⟩
    · simp only [heq, hk, hlow, and_self]
    · simp only [heq, hk, true_and]
      omega
  · have hnone : bigEndianToLu (luToBigEndian n k).2 (luToBigEndian n k).2.length = none :=
      bigEndianToLu_wide (by omega)
    rw [hlen] at hnone
    simp only [ReadsBack, hnone, hk, false_and, reduceCtorEq]

private theorem writesBack_iff (buf : List UInt8) : WritesBack buf ↔ buf.length ≤ 4 := by
  constructor
  · rintro ⟨n, hread, -⟩
    by_contra hlong
    rw [bigEndianToLu_wide (by omega)] at hread
    contradiction
  · intro hk
    have hread := bigEndianToLu_append [] hk
    rw [List.append_nil] at hread
    refine ⟨_, hread, Prod.ext (luToBigEndian_fst _ _) ?_⟩
    change (luToBigEndian _ buf.length).2 = buf
    rw [luToBigEndian_congr (toULong_toInt_mod hk), luToBigEndian_bigEndianValue]

/-- Over the widths from one to eight bytes, a number is read back exactly when it has at
most four bytes and no sign bit, and bytes are written back exactly when they are at most
four. -/
theorem bigEndian_roundTrips_iff (k : Nat) : 1 ≤ k → k ≤ 8 →
    (∀ n, n < 2 ^ (8 * k) → (ReadsBack n k ↔ k ≤ 4 ∧ n < 2 ^ 31)) ∧
      ∀ buf : List UInt8, buf.length = k → (WritesBack buf ↔ k ≤ 4) := by
  intro _ _
  constructor
  · intro n hn
    exact readsBack_iff hn
  · intro buf hlen
    rw [← hlen]
    exact writesBack_iff buf

/-- The largest number without a sign bit, and four bytes with one. -/
theorem bigEndian_roundTrips_four : ReadsBack (2 ^ 31 - 1) 4 ∧ WritesBack [128, 0, 0, 0] := by
  obtain ⟨hnumbers, hbuffers⟩ := bigEndian_roundTrips_iff 4 (by decide) (by decide)
  exact ⟨(hnumbers _ (by decide)).mpr ⟨by decide, by decide⟩, (hbuffers _ rfl).mpr (by decide)⟩

/-- The four bytes of `2 ^ 31` are read with their sign extended. -/
theorem not_readsBack_signBit :
    ¬ ∀ k n, 1 ≤ k → k ≤ 8 → n < 2 ^ (8 * k) → ReadsBack n k := by
  intro h
  have hread := h 4 (2 ^ 31) (by decide) (by decide) (by decide)
  unfold ReadsBack at hread
  revert hread
  decide

end BitTorrentBits
