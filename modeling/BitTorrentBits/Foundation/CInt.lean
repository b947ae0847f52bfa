import Mathlib

/-!
# C integer conversions

The integer types of the 64-bit ABI the program is built for: `int` has 32 bits,
`long`, `unsigned long` and `size_t` have 64. A conversion to a signed type reduces
modulo its width into the signed range, as the compilers of this ABI define it.
-/

namespace BitTorrentBits

/-- Conversion to `size_t` or `unsigned long`. -/
def toULong (z : Int) : Nat := (z % 2 ^ 64).toNat

/-- Conversion to `int`: the low 32 bits, read as a signed number. -/
def toInt (z : Int) : Int :=
  let low : Nat := (z % 2 ^ 32).toNat
  if low < (2 ^ 31 : Nat) then (low : Int) else (low : Int) - 2 ^ 32

/-- The value of a plain `char`, which is signed. -/
def charValue (b : UInt8) : Int := if b.toNat < 128 then b.toNat else (b.toNat : Int) - 256

/-- Addition of `int` values, undefined where the sum is no `int`. -/
def addInt (a b : Int) : Option Int :=
  if -2 ^ 31 ≤ a + b ∧ a + b < 2 ^ 31 then some (a + b) else none

/-- `b << s` for a byte `b`, which is promoted to `int` before the shift. -/
def shiftLeftInt (b : UInt8) (s : Nat) : Option Int :=
  if s < 32 then some (toInt (b.toNat * 2 ^ s : Nat)) else none

theorem toULong_natCast {n : Nat} (h : n < 2 ^ 64) : toULong n = n := by
  unfold toULong
  omega

theorem toULong_succ {n : Nat} (h : n + 1 < 2 ^ 64) : toULong (n + 1) = n + 1 := by
  unfold toULong
  omega

theorem toULong_add {a b : Nat} (h : a + b < 2 ^ 64) : toULong (a + b : Int) = a + b := by
  unfold toULong
  omega

theorem toULong_sub {a b : Nat} (h : b ≤ a) (ha : a < 2 ^ 64) : toULong (a - b : Int) = a - b := by
  unfold toULong
  omega

theorem toULong_add_toULong (a b : Int) : toULong (toULong a + b) = toULong (a + b) := by
  unfold toULong
  omega

theorem toULong_toULong (a : Int) : toULong (toULong a) = toULong a := by
  unfold toULong
  omega

theorem toULong_charValue_of_lt {b : UInt8} (h : b.toNat < 128) :
    toULong (charValue b) = b.toNat := by
  rw [charValue, if_pos h, toULong_natCast (by omega)]

theorem toULong_charValue_of_le {b : UInt8} (h : 128 ≤ b.toNat) :
    toULong (charValue b) = b.toNat + (2 ^ 64 - 256) := by
  have hlt := b.toNat_lt
  rw [charValue, if_neg (by omega), toULong]
  omega

theorem toInt_natCast {n : Nat} (h : n < 2 ^ 31) : toInt n = n := by
  unfold toInt
  have hlow : ((n : Int) % 2 ^ 32).toNat = n := by omega
  simp only [hlow]
  split
  · rfl
  · omega

theorem toInt_neg {n : Nat} (h : 2 ^ 31 ≤ n) (h' : n < 2 ^ 32) : toInt n < 0 := by
  unfold toInt
  have hlow : ((n : Int) % 2 ^ 32).toNat = n := by omega
  simp only [hlow]
  split <;> omega

theorem toULong_toInt_of_lt {n : Nat} (h : n < 2 ^ 31) : toULong (toInt n) = n := by
  rw [toInt_natCast h, toULong_natCast (by omega)]

theorem toULong_toInt_ne {m : Nat} (h : 2 ^ 31 ≤ m) (h' : m < 2 ^ 64 - 2 ^ 31) (n : Nat) :
    toULong (toInt n) ≠ m := by
  simp only [toULong, toInt]
  split <;> omega

theorem toULong_toInt_cases {n : Nat} (h : n < 2 ^ 32) :
    (n < 2 ^ 31 ∧ toULong (toInt n) = n) ∨
      (2 ^ 31 ≤ n ∧ toULong (toInt n) = n + (2 ^ 64 - 2 ^ 32)) := by
  by_cases hn : n < 2 ^ 31
  · exact Or.inl ⟨hn, toULong_toInt_of_lt hn⟩
  · refine Or.inr ⟨Nat.le_of_not_lt hn, ?_⟩
    simp only [toULong, toInt]
    split <;> omega

theorem toULong_toInt_of_mod_eq {m n : Nat} (h : 2 ^ 64 - 2 ^ 31 ≤ m) (h' : m < 2 ^ 64)
    (hmod : n % 2 ^ 32 = m % 2 ^ 32) : toULong (toInt n) = m := by
  simp only [toULong, toInt]
  split <;> omega

end BitTorrentBits
