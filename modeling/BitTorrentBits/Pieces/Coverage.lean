import BitTorrentBits.Pieces.BlockTiling

/-!
# Bytes that were downloaded

`download_piece` counts the messages it accepts, whatever the length of their blocks. The
buffer of a piece is not cleared when it is allocated, so a byte that no block reaches is
whatever the memory held before.
-/

namespace BitTorrentBits.PieceProgress

/-- Every byte of the piece is one of an accepted block, at its place. -/
def FromBlocks (index size : Nat) (s : Session) (buf : List UInt8) : Prop :=
  ∀ x < size, ∃ k m j, k < numBlocks size ∧ s.replies[k]? = some (some m) ∧ Answers index k m ∧
    j < (blockOf m).length ∧ k * BLOCK_SIZE + j = x ∧ buf[x]? = (blockOf m)[j]?

/-- Every run that reads the same messages and returns true returns the same bytes. -/
def Determined (index size : Nat) (s : Session) (buf : List UInt8) : Prop :=
  ∀ memory p' s', size ≤ memory.length → downloadInto memory index size s = some (true, p', s') →
    p'.buf.take size = buf.take size

/-- The end of every block of the piece is reached by the message for this block or by one
for a block before. -/
def BlocksReach (size : Nat) (s : Session) : Prop :=
  ∀ k, k * BLOCK_SIZE < size → ∃ j ≤ k, ∃ m, s.replies[j]? = some (some m) ∧
    min ((k + 1) * BLOCK_SIZE) size ≤ j * BLOCK_SIZE + (blockOf m).length

/-- The byte written last at `x` by the blocks of `ms`, the first one being block `k`. -/
def lastWritten : Nat → List Message → Nat → Option UInt8
  | _, [], _ => none
  | k, m :: ms, x =>
    (lastWritten (k + 1) ms x).or
      (if blockOffset k ≤ x then (blockOf m)[x - blockOffset k]? else none)

variable {memory buf buf' : List UInt8} {index size k x : Nat} {b : UInt8} {m : Message}
  {ms : List Message} {s s' : Session} {p' : PieceProgress} {n : Nat}

theorem fillBlocks_getElem? (h : fillBlocks k ms buf = some buf') (x : Nat) :
    buf'[x]? = (lastWritten k ms x).or buf[x]? := by
  induction ms generalizing k buf with
  | nil =>
    cases h
    rfl
  | cons m ms ih =>
    obtain ⟨buf₁, hwrite, hrest⟩ := Option.bind_eq_some_iff.mp h
    have hfirst : buf₁[x]? =
        (if blockOffset k ≤ x then (blockOf m)[x - blockOffset k]? else none).or buf[x]? := by
      rw [getElem?_writeAt hwrite x]
      by_cases hle : blockOffset k ≤ x
      · by_cases hlt : x < blockOffset k + (blockOf m).length
        · have hin : x - blockOffset k < (blockOf m).length := by omega
          rw [if_pos ⟨hle, hlt⟩, if_pos hle, List.getElem?_eq_getElem hin]
          rfl
        · have hout : (blockOf m).length ≤ x - blockOffset k := by omega
          rw [if_neg (fun h => hlt h.2), if_pos hle, List.getElem?_eq_none hout]
          rfl
      · rw [if_neg (fun h => hle h.1), if_neg hle]
        rfl
    rw [ih hrest, hfirst, lastWritten, Option.or_assoc]

theorem exists_of_lastWritten (h : lastWritten k ms x = some b) :
    ∃ j m, ms[j]? = some m ∧ blockOffset (k + j) ≤ x ∧
      (blockOf m)[x - blockOffset (k + j)]? = some b := by
  induction ms generalizing k with
  | nil => cases h
  | cons m ms ih =>
    rw [lastWritten] at h
    cases hrest : lastWritten (k + 1) ms x with
    | some b' =>
      rw [hrest] at h
      cases h
      obtain ⟨j, m', hm', hle, hbyte⟩ := ih hrest
      rw [Nat.add_right_comm k 1 j] at hle hbyte
      exact ⟨j + 1, m', hm', hle, hbyte⟩
    | none =>
      rw [hrest, Option.none_or] at h
      split at h
      · rename_i hle
        exact ⟨0, m, rfl, hle, h⟩
      · cases h

theorem lastWritten_isSome {j : Nat} (hm : ms[j]? = some m) (hle : blockOffset (k + j) ≤ x)
    (hlt : x < blockOffset (k + j) + (blockOf m).length) : (lastWritten k ms x).isSome := by
  induction ms generalizing k j with
  | nil => simp at hm
  | cons m' ms ih =>
    rw [lastWritten, Option.isSome_or]
    cases j with
    | zero =>
      cases hm
      rw [Nat.add_zero] at hle hlt
      have hin : x - blockOffset k < (blockOf m).length := by omega
      simp [hle, hin]
    | succ j =>
      have hk : k + (j + 1) = k + 1 + j := by omega
      rw [hk] at hle hlt
      simp [ih hm hle hlt]

private theorem message_of_completes {p : PieceProgress} (h : Completes n p s ms p' s') {j : Nat}
    (hj : j < ms.length) : s.replies[j]? = some ms[j]? := by
  rw [h.replies, List.getElem?_append_left (by rwa [List.length_map]), List.getElem?_map,
    List.getElem?_eq_getElem hj]
  rfl

private theorem messages_unique {p q : PieceProgress} {ms' : List Message} {q' : PieceProgress}
    {t' : Session} (h : Completes n p s ms p' s') (h' : Completes n q s ms' q' t')
    (hdown : p.downloaded = q.downloaded) : ms = ms' := by
  have hlen : ms.length = ms'.length := by
    have hcount := h.count
    have hcount' := h'.count
    omega
  have hboth := h.replies.symm.trans h'.replies
  have hmap := (List.append_inj hboth (by rw [List.length_map, List.length_map, hlen])).1
  exact List.map_injective_iff.mpr (Option.some_injective _) hmap

private theorem blockOffset_zero_add {j : Nat} (hsmall : ms.length ≤ 2 ^ 17)
    (hj : j < ms.length) : blockOffset (0 + j) = j * BLOCK_SIZE := by
  rw [Nat.zero_add, blockOffset_of_le (by omega)]

private theorem isSome_of_place {j : Nat} (hsmall : ms.length ≤ 2 ^ 17) (hm : ms[j]? = some m)
    (hle : j * BLOCK_SIZE ≤ x) (hlt : x < j * BLOCK_SIZE + (blockOf m).length) :
    (lastWritten 0 ms x).isSome := by
  have hj := (List.getElem?_eq_some_iff.mp hm).1
  apply lastWritten_isSome hm
  · rwa [blockOffset_zero_add hsmall hj]
  · rwa [blockOffset_zero_add hsmall hj]

theorem fillBlocks_length (h : fillBlocks k ms buf = some buf') : buf'.length = buf.length := by
  induction ms generalizing k buf with
  | nil =>
    cases h
    rfl
  | cons m ms ih =>
    obtain ⟨buf₁, hwrite, hrest⟩ := Option.bind_eq_some_iff.mp h
    rw [ih hrest, writeAt_length hwrite]

theorem exists_fillBlocks (h : ∀ j m, ms[j]? = some m →
    blockOffset (k + j) + (blockOf m).length ≤ buf.length) :
    ∃ buf', fillBlocks k ms buf = some buf' := by
  induction ms generalizing k buf with
  | nil => exact ⟨buf, rfl⟩
  | cons m ms ih =>
    have hwrite := writeAt_of_le (h 0 m rfl)
    rw [Nat.add_zero] at hwrite
    rw [fillBlocks, hwrite]
    apply ih
    intro j m' hm'
    have hle := h (j + 1) m' hm'
    rw [writeAt_length hwrite]
    rwa [Nat.add_assoc, Nat.add_comm 1]

theorem eq_of_fillBlocks {whole : List UInt8} (hmax : whole.length < 2 ^ 64)
    (hcount : ms.length = numBlocks whole.length) (hans : AnswersFrom index 0 ms)
    (hblocks : ∀ j m, ms[j]? = some m → blockOf m = (whole.drop (j * BLOCK_SIZE)).take BLOCK_SIZE)
    (hlen : memory.length = whole.length) (h : fillBlocks 0 ms memory = some buf) :
    buf = whole := by
  have hsmall := length_of_answersFrom hans
  apply List.ext_getElem?
  intro x
  by_cases hx : x < whole.length
  · have hdiv := Nat.div_add_mod x BLOCK_SIZE
    have hmod : x % BLOCK_SIZE < BLOCK_SIZE := Nat.mod_lt x (by decide)
    have hj : x / BLOCK_SIZE < ms.length := by
      rw [hcount, numBlocks_eq hmax]
      unfold BLOCK_SIZE
      omega
    have hm : ms[x / BLOCK_SIZE]? = some ms[x / BLOCK_SIZE] := List.getElem?_eq_getElem hj
    have hsome : (lastWritten 0 ms x).isSome := by
      apply isSome_of_place hsmall hm
      · rw [Nat.mul_comm]
        omega
      · rw [hblocks _ _ hm, List.length_take, List.length_drop, Nat.mul_comm]
        omega
    obtain ⟨b, hb⟩ := Option.isSome_iff_exists.mp hsome
    rw [fillBlocks_getElem? h, hb, Option.some_or]
    obtain ⟨j, m, hjm, hle, hbyte⟩ := exists_of_lastWritten hb
    have hjlen := (List.getElem?_eq_some_iff.mp hjm).1
    rw [blockOffset_zero_add hsmall hjlen] at hle hbyte
    have hin := (List.getElem?_eq_some_iff.mp hbyte).1
    rw [hblocks j m hjm, List.length_take] at hin
    rw [hblocks j m hjm, List.getElem?_take_of_lt (by omega), List.getElem?_drop,
      Nat.add_sub_cancel' hle] at hbyte
    exact hbyte.symm
  · have hout := fillBlocks_length h
    rw [List.getElem?_eq_none (by omega), List.getElem?_eq_none (by omega)]

private theorem place_of_lastWritten (hsmall : ms.length ≤ 2 ^ 17)
    (hb : lastWritten 0 ms x = some b) :
    ∃ j m, ms[j]? = some m ∧ j * BLOCK_SIZE ≤ x ∧ x - j * BLOCK_SIZE < (blockOf m).length ∧
      (blockOf m)[x - j * BLOCK_SIZE]? = some b := by
  obtain ⟨j, m, hm, hle, hbyte⟩ := exists_of_lastWritten hb
  have hj := (List.getElem?_eq_some_iff.mp hm).1
  rw [blockOffset_zero_add hsmall hj] at hle hbyte
  exact ⟨j, m, hm, hle, (List.getElem?_eq_some_iff.mp hbyte).1, hbyte⟩

private theorem reach_iff_written (hsmall : ms.length ≤ 2 ^ 17)
    (hread : ∀ j < ms.length, s.replies[j]? = some ms[j]?)
    (hfit : ∀ k, k * BLOCK_SIZE < size → k < ms.length) :
    BlocksReach size s ↔ ∀ x < size, (lastWritten 0 ms x).isSome := by
  constructor
  · intro h x hx
    have hdiv : x / BLOCK_SIZE * BLOCK_SIZE ≤ x := Nat.div_mul_le_self x _
    obtain ⟨j, hj, m, hm, hreach⟩ := h (x / BLOCK_SIZE) (by omega)
    have hlt : j < ms.length := hj.trans_lt (hfit _ (by omega))
    rw [hread j hlt, Option.some.injEq] at hm
    have hend : x < (x / BLOCK_SIZE + 1) * BLOCK_SIZE := by
      unfold BLOCK_SIZE
      omega
    exact isSome_of_place hsmall hm ((Nat.mul_le_mul_right _ hj).trans hdiv)
      ((lt_min hend hx).trans_le hreach)
  · intro h k hk
    have hnext : k * BLOCK_SIZE < (k + 1) * BLOCK_SIZE := by
      unfold BLOCK_SIZE
      omega
    have hend : min ((k + 1) * BLOCK_SIZE) size - 1 < size := by omega
    obtain ⟨b, hb⟩ := Option.isSome_iff_exists.mp (h _ hend)
    obtain ⟨j, m, hm, hle, hin, -⟩ := place_of_lastWritten hsmall hb
    have hlt : j < ms.length := (List.getElem?_eq_some_iff.mp hm).1
    refine ⟨j, ?_, m, by rw [hread j hlt, hm], by omega⟩
    by_contra hlater
    have hmul := Nat.mul_le_mul_right BLOCK_SIZE (Nat.lt_of_not_le hlater)
    rw [Nat.succ_eq_add_one] at hmul
    omega

private theorem fromBlocks_of_written (hms : Completes (numBlocks size) ⟨index, memory, 0⟩ s ms p' s')
    (h : ∀ x < size, (lastWritten 0 ms x).isSome) : FromBlocks index size s p'.buf := by
  intro x hx
  obtain ⟨b, hb⟩ := Option.isSome_iff_exists.mp (h x hx)
  obtain ⟨j, m, hm, hle, hin, hbyte⟩ := place_of_lastWritten (length_of_answersFrom hms.answers) hb
  have hlt : j < ms.length := (List.getElem?_eq_some_iff.mp hm).1
  have hcount : ms.length = numBlocks size := (Nat.zero_add _).symm.trans hms.count
  have hans := hms.answers.get hm
  have hvalue := fillBlocks_getElem? hms.filled x
  rw [Nat.zero_add] at hans
  refine ⟨j, m, x - j * BLOCK_SIZE, hcount ▸ hlt, by rw [message_of_completes hms hlt, hm], hans,
    hin, by omega, ?_⟩
  rw [hvalue, hb, hbyte]
  rfl

private theorem determined_of_written (hmax : ∀ m, some m ∈ s.replies → m.payloadLen < 2 ^ 64)
    (hms : Completes (numBlocks size) ⟨index, memory, 0⟩ s ms p' s')
    (h : ∀ x < size, (lastWritten 0 ms x).isSome) : Determined index size s p'.buf := by
  intro memory' q' t' _ hrun'
  obtain ⟨ms', hms'⟩ := exists_completes (Nat.zero_le _) hmax hrun'
  have hsame : ms = ms' := messages_unique hms hms' rfl
  subst hsame
  apply List.ext_getElem?
  intro x
  rw [List.getElem?_take, List.getElem?_take]
  split
  · rename_i hx
    obtain ⟨b, hb⟩ := Option.isSome_iff_exists.mp (h x hx)
    have hvalue := fillBlocks_getElem? hms.filled x
    have hvalue' := fillBlocks_getElem? hms'.filled x
    rw [hvalue, hvalue']
    change (lastWritten 0 ms x).or _ = (lastWritten 0 ms x).or _
    rw [hb]
    rfl
  · rfl

/-- A run that returns true has taken every byte of the piece from the messages, and so
returns bytes that they determine, exactly when their blocks leave no gap. -/
theorem fromBlocks_iff_blocksReach (memory : List UInt8) (index size : Nat) (s : Session)
    (hsize : size < 2 ^ 64) (hmax : ∀ m, some m ∈ s.replies → m.payloadLen < 2 ^ 64)
    (hrun : downloadInto memory index size s = some (true, p', s')) :
    (FromBlocks index size s p'.buf ∧ Determined index size s p'.buf) ↔ BlocksReach size s := by
  obtain ⟨ms, hms⟩ := exists_completes (Nat.zero_le _) hmax hrun
  have hcount : ms.length = numBlocks size := (Nat.zero_add _).symm.trans hms.count
  have hsmall := length_of_answersFrom hms.answers
  have hread : ∀ j < ms.length, s.replies[j]? = some ms[j]? := fun j => message_of_completes hms
  have hfit : ∀ k, k * BLOCK_SIZE < size → k < ms.length := by
    intro k hk
    rw [hcount, numBlocks_eq hsize]
    unfold BLOCK_SIZE at hk ⊢
    omega
  rw [reach_iff_written hsmall hread hfit]
  constructor
  · rintro ⟨h, -⟩ x hx
    obtain ⟨k, m, j, hk, hm, -, hj, hplace, -⟩ := h x hx
    rw [← hcount] at hk
    rw [hread k hk, Option.some.injEq] at hm
    exact isSome_of_place hsmall hm (by omega) (by omega)
  · intro h
    exact ⟨fromBlocks_of_written hms h, determined_of_written hmax hms h⟩

/-- One byte is asked for, and a block without a byte comes in answer: the piece is whatever
its buffer held. -/
theorem not_fromBlocks_empty_block :
    ¬ ∀ (memory : List UInt8) (index size : Nat) (s : Session) (p' : PieceProgress) (s' : Session),
      1 ≤ size → size < 2 ^ 64 → memory.length = size →
      (∀ m, some m ∈ s.replies → m.payloadLen < 2 ^ 64) →
      downloadInto memory index size s = some (true, p', s') →
      FromBlocks index size s p'.buf ∧ Determined index size s p'.buf := by
  intro h
  have hboth := h [7] 0 1 ⟨[true], [some ⟨MSG_ID_PIECE, [0, 0, 0, 0, 0, 0, 0, 0]⟩], []⟩ _ _
    (by decide) (by decide) rfl (by simp [Message.payloadLen]) rfl
  have hsame := hboth.2 [8] _ _ (by decide) rfl
  contradiction

theorem fromBlocks_iff_blocksReach_one :
    FromBlocks 0 1 ⟨[true], [some ⟨MSG_ID_PIECE, [0, 0, 0, 0, 0, 0, 0, 0, 9]⟩], []⟩ [9] ∧
      Determined 0 1 ⟨[true], [some ⟨MSG_ID_PIECE, [0, 0, 0, 0, 0, 0, 0, 0, 9]⟩], []⟩ [9] := by
  have hrun : downloadInto [7] 0 1
      ⟨[true], [some ⟨MSG_ID_PIECE, [0, 0, 0, 0, 0, 0, 0, 0, 9]⟩], []⟩ =
        some (true, ⟨0, [9], 1⟩, ⟨[], [], [requestMsg 0 0]⟩) := rfl
  apply (fromBlocks_iff_blocksReach [7] 0 1 _ (by decide) (by simp [Message.payloadLen]) hrun).mpr
  intro k hk
  have hzero : k = 0 := by
    unfold BLOCK_SIZE at hk
    omega
  subst hzero
  exact ⟨0, Nat.le_refl 0, _, rfl, by decide⟩

end BitTorrentBits.PieceProgress
