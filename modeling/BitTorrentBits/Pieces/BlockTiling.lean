import BitTorrentBits.Pieces.AcceptedBlocks

/-!
# The blocks that are asked for

The requests of a successful run should be for consecutive ranges that make up the piece.
The number of blocks adds the remainder of the division by `BLOCK_SIZE` as it is, and every
request asks for `BLOCK_SIZE` bytes.
-/

namespace BitTorrentBits.PieceProgress

/-- The piece index, the block offset and the block length of a `Request`. -/
def requestFields (m : Message) : Option (Nat × Nat × Nat) := do
  let index ← bigEndianToLu m.payload PIECE_INDEX_BYTES
  let offset ← bigEndianToLu (m.payload.drop PIECE_INDEX_BYTES) BLOCK_OFFSET_BYTES
  let length ← bigEndianToLu (m.payload.drop (PIECE_INDEX_BYTES + BLOCK_OFFSET_BYTES))
    BLOCK_LENGTH_BYTES
  return (index, offset, length)

/-- The `Request` asks for byte `x` of piece `index`. -/
def AsksFor (index : Nat) (m : Message) (x : Nat) : Prop :=
  ∃ offset length, requestFields m = some (index, offset, length) ∧
    offset ≤ x ∧ x < offset + length

/-- The requests divide the piece into as few ranges as its size allows. -/
structure Tiles (index size : Nat) (requests : List Message) : Prop where
  count : requests.length = (size + BLOCK_SIZE - 1) / BLOCK_SIZE
  inside : ∀ m ∈ requests, ∃ offset length, requestFields m = some (index, offset, length) ∧
    offset + length ≤ size
  disjoint : requests.Pairwise fun m m' => ∀ x, ¬ (AsksFor index m x ∧ AsksFor index m' x)
  covers : ∀ x < size, ∃ m ∈ requests, AsksFor index m x

/-- The requests of every run that returns true tile a piece of this size. -/
def RequestsTile (size : Nat) : Prop :=
  ∀ memory index sends replies p' s', size ≤ memory.length →
    (∀ m, some m ∈ replies → m.payloadLen < 2 ^ 64) →
    downloadInto memory index size ⟨sends, replies, []⟩ = some (true, p', s') →
    Tiles index size s'.sent

variable {index k n v : Nat} {m : Message} {ms : List Message}

private theorem reread {buf : List UInt8} (h : bigEndianToLu buf 4 = some v)
    (rest : List UInt8) : bigEndianToLu ((luToBigEndian v 4).2 ++ rest) 4 = some v := by
  have hlen : 4 ≤ buf.length := by
    by_contra hshort
    rw [bigEndianToLu_eq_none (Nat.lt_of_not_le hshort)] at h
    contradiction
  rw [bigEndianToLu_take hlen, Option.some.injEq] at h
  have hlt := bigEndianValue_take_lt buf
  rw [bigEndianToLu_four rest (luToBigEndian_length v 4), bigEndianValue_luToBigEndian]
  rcases toULong_toInt_cases hlt with ⟨hlow, hread⟩ | ⟨hhigh, hread⟩
  · have hmod : v % 2 ^ (8 * 4) = bigEndianValue (buf.take 4) := by omega
    rw [hmod, h]
  · have hmod : v % 2 ^ (8 * 4) = bigEndianValue (buf.take 4) := by omega
    rw [hmod, h]

theorem requestFields_requestMsg (h : Answers index k m) :
    requestFields (requestMsg index (blockOffset k)) = some (index, blockOffset k, BLOCK_SIZE) := by
  obtain ⟨-, hindex, hoffset⟩ := h
  have hlength : bigEndianToLu ((luToBigEndian BLOCK_SIZE 4).2 ++ []) 4 = some BLOCK_SIZE :=
    bigEndianToLu_luToBigEndian [] (Nat.le_refl 4) (by decide) (by decide)
  have hdrop : ∀ v (rest : List UInt8), ((luToBigEndian v 4).2 ++ rest).drop 4 = rest := by
    intro v rest
    exact List.drop_left' (luToBigEndian_length v 4)
  rw [List.append_nil] at hlength
  rw [requestFields, requestMsg_payload]
  change (do
    let index ← bigEndianToLu _ 4
    let offset ← bigEndianToLu (List.drop 4 _) 4
    let length ← bigEndianToLu (List.drop (4 + 4) _) 4
    return (index, offset, length)) = _
  rw [← List.drop_drop, hdrop, hdrop, reread hindex, reread hoffset, hlength]
  rfl

theorem not_answers_of_large : ¬ Answers index (2 ^ 17) m := by
  rintro ⟨-, -, hoffset⟩
  have hlen : 4 ≤ (m.payload.drop PIECE_INDEX_BYTES).length := by
    by_contra hshort
    rw [BLOCK_OFFSET_BYTES, bigEndianToLu_eq_none (Nat.lt_of_not_le hshort)] at hoffset
    contradiction
  have hlt := bigEndianValue_take_lt (m.payload.drop PIECE_INDEX_BYTES)
  have hblock : blockOffset (2 ^ 17) = 2 ^ 31 := by decide
  rw [BLOCK_OFFSET_BYTES, bigEndianToLu_take hlen, Option.some.injEq, hblock] at hoffset
  rcases toULong_toInt_cases hlt with ⟨hlow, hread⟩ | ⟨hhigh, hread⟩ <;> omega

theorem AnswersFrom.get (h : AnswersFrom index k ms) {j : Nat} (hj : ms[j]? = some m) :
    Answers index (k + j) m := by
  induction ms generalizing k j with
  | nil => simp at hj
  | cons m' ms ih =>
    cases j with
    | zero =>
      cases hj
      exact h.1
    | succ j =>
      rw [List.getElem?_cons_succ] at hj
      have hrest := ih h.2 hj
      rwa [Nat.add_assoc, Nat.add_comm 1] at hrest

theorem length_of_answersFrom (h : AnswersFrom index 0 ms) : ms.length ≤ 2 ^ 17 := by
  by_contra hlong
  have hsome : ms[2 ^ 17]?.isSome := by
    simp only [isSome_getElem?]
    exact Nat.lt_of_not_le hlong
  obtain ⟨m, hm⟩ := Option.isSome_iff_exists.mp hsome
  have hans := h.get hm
  rw [Nat.zero_add] at hans
  exact not_answers_of_large hans

theorem numBlocks_eq {size : Nat} (h : size < 2 ^ 64) :
    numBlocks size = size / BLOCK_SIZE + size % BLOCK_SIZE := by
  apply toULong_natCast
  unfold BLOCK_SIZE
  omega

private theorem fields_of_answersFrom (hans : AnswersFrom index 0 ms) (hk : k < ms.length) :
    requestFields (requestMsg index (blockOffset k)) = some (index, k * BLOCK_SIZE, BLOCK_SIZE) := by
  have hsmall := length_of_answersFrom hans
  have hanswer := hans.get (List.getElem?_eq_getElem hk)
  rw [Nat.zero_add] at hanswer
  rw [requestFields_requestMsg hanswer, blockOffset_of_le (by omega)]

private theorem mem_requestsFrom {count : Nat} :
    m ∈ requestsFrom index 0 count ↔ ∃ k < count, requestMsg index (blockOffset k) = m := by
  simp [requestsFrom, List.mem_range'_1]

private theorem asksFor_iff {x : Nat}
    (h : requestFields m = some (index, k * BLOCK_SIZE, BLOCK_SIZE)) :
    AsksFor index m x ↔ x / BLOCK_SIZE = k := by
  unfold AsksFor
  rw [h]
  unfold BLOCK_SIZE
  constructor
  · rintro ⟨offset, length, hfields, hle, hlt⟩
    cases hfields
    omega
  · intro hx
    exact ⟨_, _, rfl, by omega, by omega⟩

private theorem tiles_of_dvd {size : Nat} (hmax : size < 2 ^ 64) (hdvd : BLOCK_SIZE ∣ size)
    (hans : AnswersFrom index 0 ms) (hcount : ms.length = numBlocks size) :
    Tiles index size (requestsFrom index 0 ms.length) := by
  have hsize : ms.length * BLOCK_SIZE = size := by
    rw [hcount, numBlocks_eq hmax, Nat.mod_eq_zero_of_dvd hdvd, Nat.add_zero,
      Nat.div_mul_cancel hdvd]
  refine ⟨?_, ?_, ?_, ?_⟩
  · rw [requestsFrom, List.length_map, List.length_range', ← hsize]
    unfold BLOCK_SIZE
    omega
  · intro m hm
    obtain ⟨k, hk, rfl⟩ := mem_requestsFrom.mp hm
    refine ⟨_, _, fields_of_answersFrom hans hk, ?_⟩
    rw [← hsize, ← Nat.succ_mul]
    exact Nat.mul_le_mul_right _ hk
  · have hread : ∀ k ∈ List.range' 0 ms.length,
        requestFields (requestMsg index (blockOffset k)) =
          some (index, k * BLOCK_SIZE, BLOCK_SIZE) := by
      intro k hk
      apply fields_of_answersFrom hans
      rw [List.mem_range'_1] at hk
      omega
    rw [requestsFrom, List.pairwise_map]
    apply (List.pairwise_lt_range' (s := 0) (n := ms.length)).imp_of_mem
    intro i j hi hj hij x
    rw [asksFor_iff (hread i hi), asksFor_iff (hread j hj)]
    omega
  · intro x hx
    have hk : x / BLOCK_SIZE < ms.length := Nat.div_lt_of_lt_mul (by rwa [Nat.mul_comm, hsize])
    exact ⟨_, mem_requestsFrom.mpr ⟨_, hk, rfl⟩,
      (asksFor_iff (fields_of_answersFrom hans hk)).mpr rfl⟩

private def emptyBlocks (k count : Nat) : List Message :=
  (List.range' k count).map fun i => pieceMsg 0 i []

private theorem emptyBlocks_succ (k count : Nat) :
    emptyBlocks k (count + 1) = pieceMsg 0 k [] :: emptyBlocks (k + 1) count := rfl

private theorem emptyBlocks_answer {count : Nat} (h : k + count ≤ 2 ^ 17) :
    AnswersFrom 0 k (emptyBlocks k count) := by
  induction count generalizing k with
  | zero => trivial
  | succ count ih =>
    rw [emptyBlocks_succ]
    refine ⟨answers_pieceMsg (by decide) ?_ [], ih (by omega)⟩
    rw [blockOffset_of_lt] <;> (unfold BLOCK_SIZE; omega)

private theorem emptyBlocks_fill {count : Nat} {memory : List UInt8}
    (h : ∀ i < k + count, blockOffset i ≤ memory.length) :
    fillBlocks k (emptyBlocks k count) memory = some memory := by
  induction count generalizing k with
  | zero => rfl
  | succ count ih =>
    have hwrite : writeAt memory (blockOffset k) [] = some memory := by
      rw [writeAt_of_le (h k (by omega))]
      simp
    rw [emptyBlocks_succ, fillBlocks, blockOf_pieceMsg, hwrite]
    exact ih fun i hi => h i (by omega)

private theorem exists_run {size : Nat} (hsmall : numBlocks size ≤ 2 ^ 17) :
    ∃ memory sends replies p' s', size ≤ memory.length ∧
      (∀ m, some m ∈ replies → m.payloadLen < 2 ^ 64) ∧
      downloadInto memory 0 size ⟨sends, replies, []⟩ = some (true, p', s') ∧
      s'.sent = requestsFrom 0 0 (numBlocks size) := by
  have hcount : (emptyBlocks 0 (numBlocks size)).length = numBlocks size := by
    rw [emptyBlocks, List.length_map, List.length_range']
  have hpayload : ∀ m ∈ emptyBlocks 0 (numBlocks size), m.payloadLen < 2 ^ 64 := by
    intro m hm
    obtain ⟨k, -, rfl⟩ := List.mem_map.mp hm
    simp [pieceMsg, Message.payloadLen, PIECE_INDEX_BYTES, BLOCK_OFFSET_BYTES]
  generalize hmemory : List.replicate (size + 2 ^ 31) (0 : UInt8) = memory
  have hroom : memory.length = size + 2 ^ 31 := by
    rw [← hmemory, List.length_replicate]
  have hfill : fillBlocks 0 (emptyBlocks 0 (numBlocks size)) memory = some memory := by
    apply emptyBlocks_fill
    intro i hi
    rw [blockOffset_of_lt] <;> (unfold BLOCK_SIZE; omega)
  have hrun := downloadInto_of_answers hcount (emptyBlocks_answer (by omega)) hpayload hfill [] [] []
  refine ⟨memory, _, _, _, _, by omega, ?_, hrun, by rw [hcount]; rfl⟩
  intro m hm
  rw [List.append_nil] at hm
  obtain ⟨m', hm', hsame⟩ := List.mem_map.mp hm
  exact Option.some.inj hsame ▸ hpayload m' hm'

private theorem dvd_of_tiles {size : Nat} (hmax : size < 2 ^ 64)
    (hsmall : numBlocks size ≤ 2 ^ 17) (h : Tiles 0 size (requestsFrom 0 0 (numBlocks size))) :
    BLOCK_SIZE ∣ size := by
  have hcount := h.count
  have hlen : (emptyBlocks 0 (numBlocks size)).length = numBlocks size := by
    rw [emptyBlocks, List.length_map, List.length_range']
  rw [requestsFrom, List.length_map, List.length_range', numBlocks_eq hmax] at hcount
  apply Nat.dvd_of_mod_eq_zero
  by_contra hrem
  have hlast : size / BLOCK_SIZE < numBlocks size := by
    rw [numBlocks_eq hmax]
    omega
  obtain ⟨offset, length, hfields, hinside⟩ := h.inside _ (mem_requestsFrom.mpr ⟨_, hlast, rfl⟩)
  rw [fields_of_answersFrom (emptyBlocks_answer (k := 0) (by omega)) (hlen.symm ▸ hlast)] at hfields
  cases hfields
  unfold BLOCK_SIZE at hcount hinside hrem
  omega

/-- The requests of a successful run tile the piece exactly for the sizes that `BLOCK_SIZE`
divides, and for those so large that no run is successful. -/
theorem requestsTile_iff (size : Nat) (hmax : size < 2 ^ 64) :
    RequestsTile size ↔ BLOCK_SIZE ∣ size ∨ 2 ^ 17 < numBlocks size := by
  constructor
  · intro h
    by_cases hlarge : 2 ^ 17 < numBlocks size
    · exact Or.inr hlarge
    · have hsmall : numBlocks size ≤ 2 ^ 17 := Nat.le_of_not_lt hlarge
      obtain ⟨memory, sends, replies, p', s', hroom, hpayload, hrun, hsent⟩ := exists_run hsmall
      left
      exact dvd_of_tiles hmax hsmall (hsent ▸ h memory 0 sends replies p' s' hroom hpayload hrun)
  · intro h memory index sends replies p' s' _ hpayload hrun
    obtain ⟨ms, hms⟩ := exists_completes (Nat.zero_le _) hpayload hrun
    have hcount : ms.length = numBlocks size := (Nat.zero_add _).symm.trans hms.count
    rcases h with hdvd | hlarge
    · have hsent : s'.sent = requestsFrom index 0 ms.length := hms.sent
      rw [hsent]
      exact tiles_of_dvd hmax hdvd hms.answers hcount
    · have hsmall := length_of_answersFrom hms.answers
      omega

/-- A piece of one byte, which is asked for with a request for `BLOCK_SIZE` bytes. -/
theorem not_requestsTile_one : ¬ ∀ size : Nat, 1 ≤ size → size < 2 ^ 64 → RequestsTile size := by
  intro h
  have htiles := h 1 (by decide) (by decide) [0] 0 [true]
    [some ⟨MSG_ID_PIECE, [0, 0, 0, 0, 0, 0, 0, 0, 9]⟩] _ _ (by decide)
    (by simp [Message.payloadLen]) rfl
  obtain ⟨offset, length, hfields, hinside⟩ :=
    htiles.inside (requestMsg 0 0) (List.mem_singleton.mpr rfl)
  have hread : requestFields (requestMsg 0 0) = some (0, 0, 16384) := by decide
  rw [hread] at hfields
  cases hfields
  contradiction

theorem requestsTile_iff_two_blocks : RequestsTile 32768 :=
  (requestsTile_iff 32768 (by decide)).mpr (Or.inl (by decide))

end BitTorrentBits.PieceProgress
