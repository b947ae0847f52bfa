import BitTorrentBits.Foundation.CInt
import BitTorrentBits.Foundation.Memory
import Mathlib

/-!
# Bitfields

`bitfield.c`: one bit per piece, the first piece in the high bit of the first byte. The
byte index goes through an `int`, so it is exact only for indices below `2 ^ 34`; none of
the functions compares it with the length, and an access outside the bytes is `none`.
-/

namespace BitTorrentBits

/-- The bytes of a bitfield; the field `length` of the source is the number of bytes. -/
structure Bitfield where
  data : List UInt8
  deriving DecidableEq

namespace Bitfield

def length (b : Bitfield) : Nat := b.data.length

/-- `init_bitfield` copies `length` bytes of `data`. -/
def initBitfield (data : List UInt8) (length : Nat) : Option Bitfield :=
  (readAt data 0 length).map Bitfield.mk

/-- The C expression `index / 8` stored in an `int`. -/
def byteIndex (index : Nat) : Int := toInt ((index / 8 : Nat) : Int)

/-- The byte at an `int` index, which may be negative. -/
def byteAt (b : Bitfield) (i : Int) : Option UInt8 :=
  if 0 ≤ i then b.data[i.toNat]? else none

/-- The mask `1 << (7 - offset)`. -/
def mask (offset : Nat) : UInt8 := 1 <<< UInt8.ofNat (7 - offset)

/-- The test `(byte >> (7 - offset) & 1) != 0`. -/
def bitOf (byte : UInt8) (offset : Nat) : Bool := (byte >>> UInt8.ofNat (7 - offset)) &&& 1 != 0

def hasPiece (b : Bitfield) (index : Nat) : Option Bool := do
  let byte ← b.byteAt (byteIndex index)
  return bitOf byte (index % 8)

/-- Replace the byte that holds `index` by `f` of it and of the mask of `index`. -/
def updateByte (f : UInt8 → UInt8 → UInt8) (b : Bitfield) (index : Nat) : Option Bitfield := do
  let byte ← b.byteAt (byteIndex index)
  return ⟨b.data.set (byteIndex index).toNat (f byte (mask (index % 8)))⟩

def setPiece : Bitfield → Nat → Option Bitfield := updateByte fun byte m => byte ||| m

def unsetPiece : Bitfield → Nat → Option Bitfield := updateByte fun byte m => byte &&& ~~~ m

theorem bitOf_eq_testBit (byte : UInt8) {j : Nat} (hj : j < 8) :
    bitOf byte j = byte.toNat.testBit (7 - j) := by
  have hshift : (7 - j) % 8 = 7 - j := by omega
  rw [Bool.eq_iff_iff, bitOf, Nat.testBit]
  simp [← UInt8.toNat_inj, hshift, Nat.and_comm]

theorem mask_toNat {j : Nat} (hj : j < 8) : (mask j).toNat = 2 ^ (7 - j) := by
  interval_cases j <;> rfl

theorem bitOf_or_mask (byte : UInt8) {i j : Nat} (hi : i < 8) (hj : j < 8) :
    bitOf (byte ||| mask i) j = (decide (j = i) || bitOf byte j) := by
  rw [bitOf_eq_testBit _ hj, bitOf_eq_testBit _ hj, UInt8.toNat_or, mask_toNat hi,
    Nat.testBit_or, Nat.testBit_two_pow, Bool.or_comm]
  congr 2
  rw [eq_iff_iff]
  omega

theorem bitOf_and_not_mask (byte : UInt8) {i j : Nat} (hi : i < 8) (hj : j < 8) :
    bitOf (byte &&& ~~~ mask i) j = (decide (j ≠ i) && bitOf byte j) := by
  have hlt : 2 ^ (7 - i) < 2 ^ 8 := Nat.pow_lt_pow_right (by decide) (by omega)
  have hnot := Nat.testBit_two_pow_sub_succ hlt (7 - j)
  have hsub : UInt8.size - 1 - 2 ^ (7 - i) = 2 ^ 8 - (2 ^ (7 - i) + 1) := by
    change 256 - 1 - _ = _
    omega
  rw [bitOf_eq_testBit _ hj, bitOf_eq_testBit _ hj, UInt8.toNat_and, UInt8.toNat_not,
    mask_toNat hi, Nat.testBit_and, hsub, hnot, Nat.testBit_two_pow, Bool.and_comm]
  have h8 : 7 - j < 8 := by omega
  have hij : 7 - i = 7 - j ↔ j = i := by omega
  simp [h8, hij]

theorem byteIndex_of_lt {i : Nat} (h : i < 2 ^ 34) : byteIndex i = (i / 8 : Nat) :=
  toInt_natCast (by omega)

theorem hasPiece_of_lt (b : Bitfield) {i : Nat} (h : i < 2 ^ 34) :
    b.hasPiece i = b.data[i / 8]?.map fun byte => bitOf byte (i % 8) := by
  rw [hasPiece, byteIndex_of_lt h, byteAt, if_pos (Int.natCast_nonneg _), Int.toNat_natCast]
  cases b.data[i / 8]? <;> rfl

theorem hasPiece_isSome_iff (b : Bitfield) {i : Nat} (h : i < 2 ^ 34) :
    (b.hasPiece i).isSome ↔ i / 8 < b.length := by
  rw [hasPiece_of_lt b h, Option.isSome_map, Option.isSome_iff_ne_none, ne_eq,
    List.getElem?_eq_none_iff, Nat.not_le]
  rfl

theorem exists_hasPiece (b : Bitfield) {i : Nat} (h : i < 2 ^ 34) (hcover : i < 8 * b.length) :
    ∃ x, b.hasPiece i = some x :=
  Option.isSome_iff_exists.mp ((b.hasPiece_isSome_iff h).mpr (by omega))

theorem hasPiece_eq_none (b : Bitfield) {i : Nat} (h : 2 ^ 34 ≤ i) (h' : i < 2 ^ 35) :
    b.hasPiece i = none := by
  have hneg : byteIndex i < 0 := toInt_neg (by omega) (by omega)
  rw [hasPiece, byteAt, if_neg (Int.not_le.mpr hneg)]
  rfl

theorem updateByte_of_lt (f : UInt8 → UInt8 → UInt8) (b : Bitfield) {i : Nat} (h : i < 2 ^ 34) :
    updateByte f b i =
      b.data[i / 8]?.map fun byte => ⟨b.data.set (i / 8) (f byte (mask (i % 8)))⟩ := by
  rw [updateByte, byteIndex_of_lt h, byteAt, if_pos (Int.natCast_nonneg _), Int.toNat_natCast]
  cases b.data[i / 8]? <;> rfl

theorem updateByte_length {f : UInt8 → UInt8 → UInt8} {b b' : Bitfield} {i : Nat}
    (h : updateByte f b i = some b') : b'.length = b.length := by
  unfold updateByte at h
  obtain ⟨byte, -, hb⟩ := Option.bind_eq_some_iff.mp h
  rw [← Option.some.inj hb, length, List.length_set]
  rfl

theorem updateByte_isSome (f : UInt8 → UInt8 → UInt8) (b : Bitfield) (i : Nat) :
    (updateByte f b i).isSome = (b.hasPiece i).isSome := by
  rw [updateByte, hasPiece]
  cases b.byteAt (byteIndex i) <;> rfl

theorem index_lt_of_updateByte {f : UInt8 → UInt8 → UInt8} {b b' : Bitfield} {i : Nat}
    (h : updateByte f b i = some b') (hi : i < 2 ^ 35) : i < 2 ^ 34 := by
  by_contra hge
  have hsome := updateByte_isSome f b i
  rw [h, hasPiece_eq_none b (by omega) hi] at hsome
  contradiction

theorem hasPiece_updateByte {f : UInt8 → UInt8 → UInt8} {g : Bool → Bool → Bool}
    (hf : ∀ byte i j, i < 8 → j < 8 → bitOf (f byte (mask i)) j = g (decide (j = i)) (bitOf byte j))
    (hg : ∀ x, g false x = x) {b b' : Bitfield} {i j : Nat} (hi : i < 2 ^ 34) (hj : j < 2 ^ 34)
    (h : updateByte f b i = some b') :
    b'.hasPiece j = (b.hasPiece j).map (g (decide (j = i))) := by
  rw [updateByte_of_lt f b hi] at h
  obtain ⟨byte, hbyte, rfl⟩ := Option.map_eq_some_iff.mp h
  have hlen : i / 8 < b.data.length := (List.getElem?_eq_some_iff.mp hbyte).1
  rw [hasPiece_of_lt _ hj, hasPiece_of_lt _ hj, List.getElem?_set]
  by_cases hbytes : i / 8 = j / 8
  · rw [if_pos hbytes, if_pos hlen, ← hbytes, hbyte]
    have hbit : (j % 8 = i % 8) ↔ j = i := by omega
    simp [hf byte (i % 8) (j % 8) (Nat.mod_lt _ (by decide)) (Nat.mod_lt _ (by decide)), hbit]
  · have hne : j ≠ i := by
      rintro rfl
      exact hbytes rfl
    rw [if_neg hbytes]
    cases b.data[j / 8]? <;> simp [hne, hg]

theorem hasPiece_setPiece {b b' : Bitfield} {i j : Nat} (hi : i < 2 ^ 34) (hj : j < 2 ^ 34)
    (h : b.setPiece i = some b') :
    b'.hasPiece j = (b.hasPiece j).map (decide (j = i) || ·) :=
  hasPiece_updateByte (g := or) (fun byte _ _ => bitOf_or_mask byte) Bool.false_or hi hj h

theorem hasPiece_unsetPiece {b b' : Bitfield} {i j : Nat} (hi : i < 2 ^ 34) (hj : j < 2 ^ 34)
    (h : b.unsetPiece i = some b') :
    b'.hasPiece j = (b.hasPiece j).map (decide (j ≠ i) && ·) := by
  have hg (x : Bool) : (!false && x) = x := Bool.true_and x
  have hbits := hasPiece_updateByte (g := fun same x => !same && x)
    (fun byte i j hi' hj' => by simpa using bitOf_and_not_mask byte hi' hj') hg hi hj h
  simpa using hbits

end Bitfield

end BitTorrentBits
