import BitTorrentBits.Foundation.Memory
import Mathlib

/-!
# C strings

The functions of `string.h` on strings that end at their first NUL byte. They answer
`none` where one of them reads or writes outside the memory it was given.
-/

namespace BitTorrentBits

/-- The bytes of a string literal, without its final NUL. -/
def ascii (s : String) : List UInt8 := s.toList.map Char.toUInt8

def beforeNul (bytes : List UInt8) : List UInt8 := bytes.takeWhile (· ≠ 0)

/-- The string a buffer begins with, if there is a NUL to end it. -/
def cString (buf : List UInt8) : Option (List UInt8) :=
  if 0 ∈ buf then some (beforeNul buf) else none

def literal (s : String) : List UInt8 := ascii s ++ [0]

/-- `strcat(dst, src)`. -/
def strcat (dst src : List UInt8) : Option (List UInt8) := do
  let front ← cString dst
  let text ← cString src
  writeAt dst front.length (text ++ [0])

/-- `strncpy(dst, src, n)`: after the first NUL of `src` come only further ones. -/
def strncpy (dst src : List UInt8) (n : Nat) : Option (List UInt8) :=
  if src.length < n ∧ 0 ∉ src then none
  else
    let copied := beforeNul (src.take n)
    writeAt dst 0 (copied ++ List.replicate (n - copied.length) 0)

def clipped (bytes : List UInt8) : List UInt8 :=
  beforeNul bytes ++ List.replicate (bytes.length - (beforeNul bytes).length) 0

theorem beforeNul_length_le (bytes : List UInt8) : (beforeNul bytes).length ≤ bytes.length :=
  (List.takeWhile_prefix _).length_le

theorem beforeNul_of_notMem {bytes : List UInt8} (h : 0 ∉ bytes) : beforeNul bytes = bytes := by
  apply List.takeWhile_eq_self_iff.mpr
  intro b hb
  have hne : b ≠ 0 := fun hzero => h (hzero ▸ hb)
  simpa using hne

theorem beforeNul_append_nul {bytes rest : List UInt8} (h : 0 ∉ bytes) :
    beforeNul (bytes ++ 0 :: rest) = bytes := by
  rw [beforeNul, List.takeWhile_append_of_pos]
  · simp
  · intro b hb
    have hne : b ≠ 0 := fun hzero => h (hzero ▸ hb)
    simpa using hne

theorem cString_of_split {text rest : List UInt8} (h : 0 ∉ text) :
    cString (text ++ 0 :: rest) = some text := by
  rw [cString, if_pos (by simp), beforeNul_append_nul h]

def IsString (buf text : List UInt8) : Prop := 0 ∉ text ∧ ∃ rest, buf = text ++ 0 :: rest

theorem isString_beforeNul {buf : List UInt8} (h : 0 ∈ buf) : IsString buf (beforeNul buf) := by
  obtain ⟨front, rest, rfl, hfront⟩ := List.eq_append_cons_of_mem h
  rw [beforeNul_append_nul hfront]
  exact ⟨hfront, rest, rfl⟩

theorem IsString.strcat {buf src text tail : List UInt8} (h : IsString buf text)
    (hsrc : IsString src tail) (hroom : text.length + tail.length < buf.length) :
    ∃ buf', strcat buf src = some buf' ∧ buf'.length = buf.length ∧
      IsString buf' (text ++ tail) := by
  obtain ⟨htext, rest, rfl⟩ := h
  obtain ⟨htail, rest', rfl⟩ := hsrc
  have hwrite : writeAt (text ++ 0 :: rest) text.length (tail ++ [0]) =
      some (text ++ tail ++ 0 :: rest.drop tail.length) := by
    have hend : (tail ++ [0]).length = tail.length + 1 := List.length_append
    rw [writeAt_of_le (by omega),
      List.take_left, ← List.drop_drop, List.drop_left, List.length_append, List.length_singleton,
      List.drop_succ_cons]
    simp
  refine ⟨text ++ tail ++ 0 :: rest.drop tail.length, ?_, writeAt_length hwrite, ?_, _, rfl⟩
  · simp only [BitTorrentBits.strcat, cString_of_split htext, cString_of_split htail,
      Option.bind_eq_bind, Option.bind_some, hwrite]
  · rw [List.mem_append, not_or]
    exact ⟨htext, htail⟩

theorem IsString.strcat_eq_none {buf src text tail : List UInt8} (h : IsString buf text)
    (hsrc : IsString src tail) (hfull : buf.length ≤ text.length + tail.length) :
    BitTorrentBits.strcat buf src = none := by
  obtain ⟨htext, rest, rfl⟩ := h
  obtain ⟨htail, rest', rfl⟩ := hsrc
  simp only [BitTorrentBits.strcat, cString_of_split htext, cString_of_split htail,
    Option.bind_eq_bind, Option.bind_some]
  have hend : (tail ++ [0]).length = tail.length + 1 := List.length_append
  rw [writeAt_eq_none]
  omega

theorem IsString.foldlM_isSome {buf text : List UInt8} {srcs tails : List (List UInt8)}
    (h : IsString buf text) (hsrcs : List.Forall₂ IsString srcs tails) :
    (srcs.foldlM BitTorrentBits.strcat buf).isSome ↔
      text.length + tails.flatten.length < buf.length := by
  induction hsrcs generalizing buf text with
  | nil =>
    obtain ⟨-, rest, rfl⟩ := h
    apply iff_of_true rfl
    rw [List.flatten_nil, List.length_nil, List.length_append, List.length_cons]
    omega
  | @cons src tail srcs tails hsrc _ ih =>
    rw [List.foldlM_cons, List.flatten_cons, List.length_append, ← Nat.add_assoc]
    by_cases hroom : text.length + tail.length < buf.length
    · obtain ⟨buf', hcat, hsize, hbuf'⟩ := h.strcat hsrc hroom
      rw [hcat, Option.bind_eq_bind, Option.bind_some, ih hbuf', hsize, List.length_append]
    · rw [h.strcat_eq_none hsrc (Nat.le_of_not_lt hroom)]
      apply iff_of_false
      · exact Bool.false_ne_true
      · omega

theorem IsString.exists_foldlM {buf text : List UInt8} {srcs tails : List (List UInt8)}
    (h : IsString buf text) (hsrcs : List.Forall₂ IsString srcs tails)
    (hroom : text.length + tails.flatten.length < buf.length) :
    ∃ buf', srcs.foldlM BitTorrentBits.strcat buf = some buf' ∧
      IsString buf' (text ++ tails.flatten) := by
  induction hsrcs generalizing buf text with
  | nil => exact ⟨buf, rfl, by rwa [List.flatten_nil, List.append_nil]⟩
  | @cons src tail srcs tails hsrc _ ih =>
    rw [List.flatten_cons, List.length_append, ← Nat.add_assoc] at hroom
    obtain ⟨buf₁, hcat, hsize, hbuf₁⟩ := h.strcat hsrc (by omega)
    obtain ⟨buf', hrest, hbuf'⟩ := ih hbuf₁ (by rwa [hsize, List.length_append])
    refine ⟨buf', ?_, ?_⟩
    · rw [List.foldlM_cons, hcat]
      exact hrest
    · rwa [List.flatten_cons, ← List.append_assoc]

@[simp] theorem clipped_length (bytes : List UInt8) : (clipped bytes).length = bytes.length := by
  have hle := beforeNul_length_le bytes
  rw [clipped, List.length_append, List.length_replicate]
  omega

theorem clipped_of_notMem {bytes : List UInt8} (h : 0 ∉ bytes) : clipped bytes = bytes := by
  simp [clipped, beforeNul_of_notMem h]

theorem clipped_append_nul {bytes : List UInt8} (rest : List UInt8) (h : 0 ∉ bytes) :
    clipped (bytes ++ 0 :: rest) = bytes ++ List.replicate (rest.length + 1) 0 := by
  rw [clipped, beforeNul_append_nul h]
  simp

theorem nul_cases (bytes : List UInt8) :
    0 ∉ bytes ∨ ∃ front rest, 0 ∉ front ∧ bytes = front ++ 0 :: rest := by
  by_cases h : 0 ∈ bytes
  · obtain ⟨front, rest, hbytes, hfront⟩ := List.eq_append_cons_of_mem h
    exact Or.inr ⟨front, rest, hfront, hbytes⟩
  · exact Or.inl h

theorem eq_of_clipped_eq {bytes copy : List UInt8} (h : clipped bytes = copy)
    (hcopy : 0 ∉ copy.dropLast) : bytes = copy := by
  rcases nul_cases bytes with hnone | ⟨front, rest, hfront, hbytes⟩
  · rw [← h, clipped_of_notMem hnone]
  · rw [hbytes, clipped_append_nul rest hfront] at h
    cases rest with
    | nil => exact hbytes.trans h
    | cons b rest =>
      have hmem : 0 ∈ copy.dropLast := by
        rw [← h, List.length_cons, List.replicate_succ, List.replicate_succ,
          List.dropLast_append_of_ne_nil (by simp), List.dropLast_cons_of_ne_nil (by simp)]
        simp
      exact (hcopy hmem).elim

theorem clipped_of_dropLast {bytes : List UInt8} (h : 0 ∉ bytes.dropLast) :
    clipped bytes = bytes := by
  rcases nul_cases bytes with hnone | ⟨front, rest, hfront, hbytes⟩
  · exact clipped_of_notMem hnone
  · cases rest with
    | nil => rw [hbytes, clipped_append_nul [] hfront]; rfl
    | cons b rest =>
      have hmem : 0 ∈ bytes.dropLast := by
        rw [hbytes, List.dropLast_append_of_ne_nil (by simp), List.dropLast_cons_of_ne_nil (by simp)]
        simp
      exact (h hmem).elim

theorem exists_clipped_eq {bytes : List UInt8} (h : 0 ∈ bytes.dropLast) :
    ∃ other, other ≠ bytes ∧ other.length = bytes.length ∧ clipped other = clipped bytes := by
  obtain ⟨front, rest, hbytes, hfront⟩ := List.eq_append_cons_of_mem h
  have hne : bytes ≠ [] := by
    rintro rfl
    contradiction
  obtain ⟨last, hlast⟩ : ∃ last, bytes = front ++ 0 :: (rest ++ [last]) := by
    refine ⟨bytes.getLast hne, ?_⟩
    conv_lhs => rw [← List.dropLast_append_getLast hne, hbytes]
    simp
  refine ⟨front ++ 0 :: (rest ++ [last + 1]), ?_, by simp [hlast], ?_⟩
  · intro hsame
    rw [hlast] at hsame
    simp at hsame
  · rw [hlast, clipped_append_nul _ hfront, clipped_append_nul _ hfront]
    simp

theorem strncpy_eq {dst text : List UInt8} (rest : List UInt8) (h : text.length ≤ dst.length) :
    strncpy dst (text ++ rest) text.length = some (clipped text ++ dst.drop text.length) := by
  rw [strncpy, if_neg (by simp)]
  simp only [List.take_left]
  change writeAt dst 0 (clipped text) = _
  rw [writeAt_of_le (by simpa using h)]
  simp

theorem strncpy_eq_none {dst : List UInt8} (src : List UInt8) {n : Nat} (h : dst.length < n) :
    strncpy dst src n = none := by
  unfold strncpy
  split
  · rfl
  · have hle : (beforeNul (src.take n)).length ≤ n :=
      (beforeNul_length_le _).trans (List.length_take_le _ _)
    refine writeAt_eq_none.mpr ?_
    rw [List.length_append, List.length_replicate]
    omega

end BitTorrentBits
