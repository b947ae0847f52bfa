import Mathlib

/-!
# Bounded buffers

A buffer is the list of its cells. Reading or writing a block answers `none` when the
block leaves the buffer, so a computation in `Option` that answers `some` has made no
access outside the memory it was given.
-/

namespace BitTorrentBits

variable {α : Type*}

def readAt (buf : List α) (i n : Nat) : Option (List α) :=
  if i + n ≤ buf.length then some ((buf.drop i).take n) else none

/-- `buf` with the cells from offset `i` replaced by `src`. -/
def writeAt (buf : List α) (i : Nat) (src : List α) : Option (List α) :=
  if i + src.length ≤ buf.length then
    some (buf.take i ++ src ++ buf.drop (i + src.length))
  else none

/-- The `n` cells of `buf` from offset `i`, as an array of that size. -/
def readArray (buf : List α) (i n : Nat) : Option (List.Vector α n) :=
  if h : i + n ≤ buf.length then
    some ⟨(buf.drop i).take n, by rw [List.length_take, List.length_drop]; omega⟩
  else none

/-- `malloc(n)`, in which the cells hold what they happen to hold. It answers NULL for a
size that no object has. -/
def malloc (fresh : Nat → α) (n : Nat) : Option (List α) :=
  if n < 2 ^ 63 then some ((List.range n).map fresh) else none

theorem readAt_eq_none {buf : List α} {i n : Nat} :
    readAt buf i n = none ↔ buf.length < i + n := by
  unfold readAt
  split <;> simp <;> omega

theorem readAt_of_le {buf : List α} {i n : Nat} (h : i + n ≤ buf.length) :
    readAt buf i n = some ((buf.drop i).take n) := if_pos h

theorem readAt_le {buf block : List α} {i n : Nat} (h : readAt buf i n = some block) :
    i + n ≤ buf.length := by
  by_contra hlt
  rw [readAt_eq_none.mpr (by omega)] at h
  contradiction

theorem readAt_middle (before block after : List α) :
    readAt (before ++ block ++ after) before.length block.length = some block := by
  rw [readAt_of_le (by simp only [List.length_append]; omega)]
  simp [List.append_assoc]

theorem readArray_eq_none {buf : List α} {i n : Nat} :
    readArray buf i n = none ↔ buf.length < i + n := by
  unfold readArray
  split <;> simp <;> omega

theorem exists_readArray {buf : List α} {i n : Nat} (h : i + n ≤ buf.length) :
    ∃ v, readArray buf i n = some v ∧ v.toList = (buf.drop i).take n :=
  ⟨_, dif_pos h, rfl⟩

theorem readArray_middle {before : List α} {n : Nat} (v : List.Vector α n) (after : List α) {i : Nat}
    (hi : before.length = i) : readArray (before ++ (v.toList ++ after)) i n = some v := by
  have htake : ((before ++ (v.toList ++ after)).drop i).take n = v.toList := by
    rw [← hi, List.drop_left, List.take_left' v.toList_length]
  have hle : i + n ≤ (before ++ (v.toList ++ after)).length := by
    simp only [List.length_append, List.Vector.toList_length]
    omega
  rw [readArray, dif_pos hle]
  exact congrArg some (Subtype.ext htake)

theorem exists_malloc (fresh : Nat → α) {n : Nat} (h : n < 2 ^ 63) :
    ∃ buf, malloc fresh n = some buf ∧ buf.length = n :=
  ⟨(List.range n).map fresh, if_pos h, by simp⟩

theorem writeAt_eq_none {buf src : List α} {i : Nat} :
    writeAt buf i src = none ↔ buf.length < i + src.length := by
  unfold writeAt
  split <;> simp <;> omega

theorem writeAt_of_le {buf src : List α} {i : Nat} (h : i + src.length ≤ buf.length) :
    writeAt buf i src = some (buf.take i ++ src ++ buf.drop (i + src.length)) := if_pos h

theorem writeAt_length {buf src buf' : List α} {i : Nat} (h : writeAt buf i src = some buf') :
    buf'.length = buf.length := by
  unfold writeAt at h
  split at h
  · cases h
    simp only [List.length_append, List.length_take, List.length_drop]
    omega
  · contradiction

theorem getElem?_writeAt {buf src buf' : List α} {i : Nat} (h : writeAt buf i src = some buf')
    (x : Nat) : buf'[x]? = if i ≤ x ∧ x < i + src.length then src[x - i]? else buf[x]? := by
  have hle : i + src.length ≤ buf.length := by
    by_contra hlt
    rw [writeAt_eq_none.mpr (by omega)] at h
    contradiction
  rw [writeAt_of_le hle] at h
  cases h
  have htake : (buf.take i).length = i := List.length_take_of_le (by omega)
  by_cases hbefore : x < i
  · rw [if_neg (by omega), List.append_assoc, List.getElem?_append_left (by omega),
      List.getElem?_take_of_lt hbefore]
  · by_cases hin : x < i + src.length
    · rw [if_pos ⟨by omega, hin⟩, List.append_assoc, List.getElem?_append_right (by omega), htake,
        List.getElem?_append_left (by omega)]
    · have hboth : (buf.take i ++ src).length = i + src.length := by
        rw [List.length_append, htake]
      rw [if_neg (by omega), List.getElem?_append_right (by omega), hboth, List.getElem?_drop]
      congr 1
      omega

theorem getElem?_flatten_blocks {blocks : List (List α)} {n : Nat} (hn : 0 < n)
    (h : ∀ b ∈ blocks, b.length = n) (k : Nat) :
    blocks.flatten[k]? = blocks[k / n]?.bind fun b => b[k % n]? := by
  induction blocks generalizing k with
  | nil => simp
  | cons b bs ih =>
    have hb : b.length = n := h b List.mem_cons_self
    have hbs : ∀ b ∈ bs, b.length = n := fun b hb => h b (List.mem_cons_of_mem _ hb)
    rw [List.flatten_cons]
    by_cases hk : k < n
    · rw [List.getElem?_append_left (by omega), Nat.div_eq_of_lt hk, Nat.mod_eq_of_lt hk]
      simp
    · have hle : n ≤ k := Nat.le_of_not_lt hk
      rw [List.getElem?_append_right (by omega), hb, ih hbs, Nat.mod_eq_sub_mod hle,
        Nat.div_eq_sub_div hn hle]
      simp

theorem length_flatten_blocks {blocks : List (List α)} {n : Nat}
    (h : ∀ b ∈ blocks, b.length = n) : blocks.flatten.length = blocks.length * n := by
  induction blocks with
  | nil => simp
  | cons b bs ih =>
    have hb : b.length = n := h b List.mem_cons_self
    rw [List.flatten_cons, List.length_append, ih fun b hb => h b (List.mem_cons_of_mem _ hb), hb,
      List.length_cons, Nat.succ_mul, Nat.add_comm]

end BitTorrentBits
