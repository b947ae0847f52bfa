import BitTorrentBits.Pieces.Bitfield

/-!
# Bitfields as sets

The bits of a bitfield as a set of indices. Setting a bit inserts its index, unsetting removes it,
and updates of different indices commute.
-/

namespace BitTorrentBits.Bitfield

/-- The two functions that change a bitfield. -/
inductive Update where
  | set
  | unset
  deriving DecidableEq

namespace Update

/-- What an update makes of a byte, given the mask of its bit. -/
def onByte : Update → UInt8 → UInt8 → UInt8
  | set, byte, m => byte ||| m
  | unset, byte, m => byte &&& ~~~ m

/-- What an update makes of a bit, which is its own one or not. -/
def onBit : Update → Bool → Bool → Bool
  | set, own, x => own || x
  | unset, own, x => !own && x

def apply : Update → Bitfield → Nat → Option Bitfield
  | set => setPiece
  | unset => unsetPiece

end Update

/-- The index has a byte, and an `int` holds the index of that byte. -/
structure InRange (b : Bitfield) (i : Nat) : Prop where
  lt_length : i < 8 * b.length
  byte_lt : i / 8 < 2 ^ 31

variable {b b' : Bitfield} {u v : Update} {i j : Nat}

theorem InRange.lt (h : b.InRange i) : i < 2 ^ 34 := by
  have hbyte := h.byte_lt
  omega

theorem InRange.exists_byte (h : b.InRange i) : ∃ byte, b.data[i / 8]? = some byte := by
  have hlt := h.lt_length
  have hdata : i / 8 < b.data.length := by
    change i / 8 < b.length
    omega
  exact ⟨_, List.getElem?_eq_getElem hdata⟩

theorem InRange.exists_hasPiece (h : b.InRange i) : ∃ x, b.hasPiece i = some x :=
  b.exists_hasPiece h.lt h.lt_length

private theorem Update.apply_eq (u : Update) : u.apply = updateByte u.onByte := by
  cases u <;> rfl

private theorem Update.bitOf_onByte (u : Update) (byte : UInt8) (i j : Nat) (hi : i < 8)
    (hj : j < 8) : bitOf (u.onByte byte (mask i)) j = u.onBit (decide (j = i)) (bitOf byte j) := by
  cases u with
  | set => exact bitOf_or_mask byte hi hj
  | unset => simpa [onByte, onBit] using bitOf_and_not_mask byte hi hj

private theorem Update.onBit_false (u : Update) (x : Bool) : u.onBit false x = x := by
  cases u <;> rfl

theorem exists_apply (u : Update) (h : b.InRange i) : ∃ b', u.apply b i = some b' := by
  obtain ⟨x, hx⟩ := h.exists_hasPiece
  rw [← Option.isSome_iff_exists, u.apply_eq, updateByte_isSome, hx]
  rfl

theorem apply_length (h : u.apply b i = some b') : b'.length = b.length := by
  rw [u.apply_eq] at h
  exact updateByte_length h

theorem hasPiece_apply (hi : b.InRange i) (hj : b.InRange j) (h : u.apply b i = some b') :
    b'.hasPiece j = (b.hasPiece j).map (u.onBit (decide (j = i))) := by
  rw [u.apply_eq] at h
  exact hasPiece_updateByte u.bitOf_onByte u.onBit_false hi.lt hj.lt h

/-- Byte `n` may have changed, and nothing else. -/
structure ChangesByte (b b' : Bitfield) (n : Nat) : Prop where
  length : b'.length = b.length
  others : ∀ k, k ≠ n → b'.data[k]? = b.data[k]?

theorem changesByte_apply (hi : b.InRange i) (h : u.apply b i = some b') :
    ChangesByte b b' (i / 8) := by
  refine ⟨apply_length h, ?_⟩
  intro k hk
  rw [u.apply_eq, updateByte_of_lt _ b hi.lt] at h
  obtain ⟨byte, -, rfl⟩ := Option.map_eq_some_iff.mp h
  exact List.getElem?_set_ne (Ne.symm hk)

private theorem byte_ext {x y : UInt8} (h : ∀ k < 8, bitOf x k = bitOf y k) : x = y := by
  rw [← UInt8.toNat_inj]
  apply Nat.eq_of_testBit_eq
  intro k
  by_cases hk : k < 8
  · have hbit := h (7 - k) (by omega)
    rw [bitOf_eq_testBit _ (by omega), bitOf_eq_testBit _ (by omega)] at hbit
    have hsub : 7 - (7 - k) = k := by omega
    rwa [hsub] at hbit
  · have hpow : 2 ^ 8 ≤ 2 ^ k := Nat.pow_le_pow_right (by decide) (by omega)
    rw [Nat.testBit_lt_two_pow (x.toNat_lt.trans_le hpow),
      Nat.testBit_lt_two_pow (y.toNat_lt.trans_le hpow)]

private theorem onByte_comm (u v : Update) (byte : UInt8) {i j : Nat} (hi : i < 8) (hj : j < 8)
    (hne : i ≠ j) :
    v.onByte (u.onByte byte (mask i)) (mask j) = u.onByte (v.onByte byte (mask j)) (mask i) := by
  apply byte_ext
  intro k hk
  simp only [Update.bitOf_onByte, hi, hj, hk]
  by_cases hki : k = i
  · simp [hki, hne, Update.onBit_false]
  · simp [hki, Update.onBit_false]

theorem apply_comm (hi : b.InRange i) (hj : b.InRange j) (hne : i ≠ j) (u v : Update) :
    ∃ b', ((u.apply b i).bind fun c => v.apply c j) = some b' ∧
      ((v.apply b j).bind fun c => u.apply c i) = some b' := by
  obtain ⟨x, hx⟩ := hi.exists_byte
  obtain ⟨y, hy⟩ := hj.exists_byte
  have hxlt := (List.getElem?_eq_some_iff.mp hx).1
  have hylt := (List.getElem?_eq_some_iff.mp hy).1
  simp only [Update.apply_eq, updateByte_of_lt _ _ hi.lt, updateByte_of_lt _ _ hj.lt, hx, hy,
    Option.map_some, Option.bind_some, List.getElem?_set]
  by_cases hbyte : i / 8 = j / 8
  · have hoffset : i % 8 ≠ j % 8 := by omega
    have hxy : x = y := by
      rw [hbyte, hy] at hx
      exact (Option.some.inj hx).symm
    have hcomm := onByte_comm u v x (Nat.mod_lt i (by decide)) (Nat.mod_lt j (by decide)) hoffset
    simp only [hbyte, hylt, if_true, Option.map_some, List.set_set, ← hxy, hcomm]
    exact ⟨_, rfl, rfl⟩
  · simp only [hbyte, Ne.symm hbyte, if_false, Option.map_some]
    exact ⟨_, rfl, congrArg some (congrArg Bitfield.mk (List.set_comm _ _ (Ne.symm hbyte)))⟩

theorem initBitfield_hasPiece {data : List UInt8} {length : Nat} (hread : length ≤ data.length)
    (hj : j < 8 * length) (hbyte : j / 8 < 2 ^ 31) :
    ∃ b byte, initBitfield data length = some b ∧ b.length = length ∧
      data[j / 8]? = some byte ∧ b.hasPiece j = some (byte.toNat.testBit (7 - j % 8)) := by
  have hlt : j / 8 < length := by omega
  have hget : data[j / 8]? = some data[j / 8] := List.getElem?_eq_getElem (hlt.trans_le hread)
  have hinit : initBitfield data length = some ⟨data.take length⟩ := by
    rw [initBitfield, readAt_of_le (by omega)]
    rfl
  refine ⟨_, _, hinit, List.length_take_of_le hread, hget, ?_⟩
  rw [hasPiece_of_lt _ (by omega), List.getElem?_take_of_lt hlt, hget, Option.map_some,
    bitOf_eq_testBit _ (Nat.mod_lt _ (by decide))]

/-- The laws of a set of indices: what each update does to each index, that updates touch
one byte only and commute, and which bits a new bitfield has. -/
theorem setLaws (b : Bitfield) {i j : Nat} (hi : b.InRange i) (hj : b.InRange j) :
    ∃ x, b.hasPiece j = some x ∧
      (∃ c, b.setPiece i = some c ∧ c.hasPiece j = some (decide (j = i) || x) ∧
        ChangesByte b c (i / 8)) ∧
      (∃ c, b.unsetPiece i = some c ∧ c.hasPiece j = some (decide (j ≠ i) && x) ∧
        ChangesByte b c (i / 8)) ∧
      (i ≠ j → ∀ u v : Update, ∃ c, ((u.apply b i).bind fun d => v.apply d j) = some c ∧
        ((v.apply b j).bind fun d => u.apply d i) = some c) ∧
      ∀ data : List UInt8, b.length ≤ data.length →
        ∃ c byte, initBitfield data b.length = some c ∧ c.length = b.length ∧
          data[j / 8]? = some byte ∧ c.hasPiece j = some (byte.toNat.testBit (7 - j % 8)) := by
  obtain ⟨x, hx⟩ := hj.exists_hasPiece
  refine ⟨x, hx, ?_, ?_, apply_comm hi hj, fun data hread => ?_⟩
  · obtain ⟨c, hc⟩ := exists_apply .set hi
    refine ⟨c, hc, ?_, changesByte_apply hi hc⟩
    rw [hasPiece_apply hi hj hc, hx]
    rfl
  · obtain ⟨c, hc⟩ := exists_apply .unset hi
    refine ⟨c, hc, ?_, changesByte_apply hi hc⟩
    rw [hasPiece_apply hi hj hc, hx, decide_not]
    rfl
  · exact initBitfield_hasPiece hread hj.lt_length hj.byte_lt

theorem setLaws_two_bytes :
    ∃ c, setPiece ⟨[0, 64]⟩ 3 = some c ∧ c.hasPiece 9 = some true ∧
      ChangesByte ⟨[0, 64]⟩ c 0 := by
  obtain ⟨x, hx, ⟨c, hc, hbit, hchanges⟩, -⟩ :=
    setLaws ⟨[0, 64]⟩ (i := 3) (j := 9) ⟨by decide, by decide⟩ ⟨by decide, by decide⟩
  cases hx
  exact ⟨c, hc, hbit, hchanges⟩

end BitTorrentBits.Bitfield
