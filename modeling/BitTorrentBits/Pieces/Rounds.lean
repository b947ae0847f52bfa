import BitTorrentBits.Pieces.DownloadPiece

/-!
# The rounds of a download

A loop of `download_piece` that returns true has read one answer for each of its requests.
What it leaves in the buffer is what these answers carry, one written over the other.
-/

namespace BitTorrentBits.PieceProgress

/-- `download_piece` for a piece of `size` bytes. Its buffer begins at `memory`, which may go
on behind it, so that a run which writes past the end of the piece is followed too. -/
def downloadInto (memory : List UInt8) (index size : Nat) (s : Session) :
    Option (Bool × PieceProgress × Session) :=
  requestBlocks (numBlocks size) (numBlocks size + 1) ⟨index, memory, 0⟩ s

theorem downloadPiece_eq_downloadInto (index size : Nat) (fresh : Nat → UInt8) (s : Session) :
    downloadPiece (initPieceProgress index size fresh) s =
      downloadInto ((List.range size).map fresh) index size s := by
  rw [downloadPiece, initPieceProgress_size]
  rfl

/-- The block that a `Piece` message carries after its two numbers. -/
def blockOf (m : Message) : List UInt8 := m.payload.drop (PIECE_INDEX_BYTES + BLOCK_OFFSET_BYTES)

/-- The buffer after the blocks of `ms` have been taken, the first one as block `k`. -/
def fillBlocks : Nat → List Message → List UInt8 → Option (List UInt8)
  | _, [], buf => some buf
  | k, m :: ms, buf => do
    let buf' ← writeAt buf (blockOffset k) (blockOf m)
    fillBlocks (k + 1) ms buf'

/-- The requests for `count` blocks from block `k` on. -/
def requestsFrom (index k count : Nat) : List Message :=
  (List.range' k count).map fun i => requestMsg index (blockOffset i)

/-- The messages answer the requests from the one for block `k` on. -/
def AnswersFrom (index : Nat) : Nat → List Message → Prop
  | _, [] => True
  | k, m :: ms => Answers index k m ∧ AnswersFrom index (k + 1) ms

/-- The `Piece` message with `block` as block `k` of piece `index`. -/
def pieceMsg (index k : Nat) (block : List UInt8) : Message :=
  ⟨MSG_ID_PIECE, (luToBigEndian index PIECE_INDEX_BYTES).2 ++
    ((luToBigEndian (blockOffset k) BLOCK_OFFSET_BYTES).2 ++ block)⟩

/-- What a loop over the blocks up to `n` that returns true has done. -/
structure Completes (n : Nat) (p : PieceProgress) (s : Session) (ms : List Message)
    (p' : PieceProgress) (s' : Session) : Prop where
  count : p.downloaded + ms.length = n
  sends : s.sends = List.replicate ms.length true ++ s'.sends
  replies : s.replies = ms.map some ++ s'.replies
  sent : s'.sent = s.sent ++ requestsFrom p.index p.downloaded ms.length
  answers : AnswersFrom p.index p.downloaded ms
  filled : fillBlocks p.downloaded ms p.buf = some p'.buf
  index : p'.index = p.index
  downloaded : p'.downloaded = n

variable {p p' : PieceProgress} {m : Message} {ms : List Message} {s s' : Session}
  {index k n fuel : Nat}

theorem length_of_answers (h : Answers index k m) :
    PIECE_INDEX_BYTES + BLOCK_OFFSET_BYTES ≤ m.payloadLen := by
  obtain ⟨-, -, hoffset⟩ := h
  by_contra hshort
  unfold PIECE_INDEX_BYTES BLOCK_OFFSET_BYTES Message.payloadLen at *
  have hdrop : (m.payload.drop 4).length < 4 := by
    rw [List.length_drop]
    omega
  rw [bigEndianToLu_eq_none hdrop] at hoffset
  contradiction

theorem receiveBlock_of_answers (h : Answers p.index k m) (hmax : m.payloadLen < 2 ^ 64) :
    receiveBlock p (blockOffset k) m = (writeAt p.buf (blockOffset k) (blockOf m)).map fun buf =>
      (true, { p with buf := buf, downloaded := p.downloaded + 1 }) := by
  rcases receiveBlock_long h.1 (length_of_answers h) hmax k with ⟨hnot, -⟩ | ⟨-, hrecv⟩
  · exact (hnot h).elim
  · exact hrecv

theorem receiveBlock_of_not_answers (h : ¬ Answers p.index k m) (hmax : m.payloadLen < 2 ^ 64)
    (hlen : m.id = MSG_ID_PIECE → PIECE_INDEX_BYTES + BLOCK_OFFSET_BYTES ≤ m.payloadLen) :
    receiveBlock p (blockOffset k) m = some (false, p) := by
  by_cases hid : m.id = MSG_ID_PIECE
  · rcases receiveBlock_long hid (hlen hid) hmax k with ⟨-, hrecv⟩ | ⟨hyes, -⟩
    · exact hrecv
    · exact (h hyes).elim
  · exact receiveBlock_of_id_ne hid

theorem answers_of_receiveBlock (hmax : m.payloadLen < 2 ^ 64)
    (h : receiveBlock p (blockOffset k) m = some (true, p')) : Answers p.index k m := by
  by_contra hnot
  by_cases hlen : m.id = MSG_ID_PIECE → PIECE_INDEX_BYTES + BLOCK_OFFSET_BYTES ≤ m.payloadLen
  · rw [receiveBlock_of_not_answers hnot hmax hlen] at h
    cases h
  · rw [Classical.not_imp] at hlen
    rw [receiveBlock_short hlen.1 (Nat.lt_of_not_le hlen.2)] at h
    cases h

theorem requestBlock_eq_true (hmax : ∀ m, some m ∈ s.replies → m.payloadLen < 2 ^ 64)
    (h : requestBlock p s = some (true, p', s')) :
    ∃ m, s.sends = true :: s'.sends ∧ s.replies = some m :: s'.replies ∧
      s'.sent = s.sent ++ [requestMsg p.index (blockOffset p.downloaded)] ∧
      Answers p.index p.downloaded m ∧
      writeAt p.buf (blockOffset p.downloaded) (blockOf m) = some p'.buf ∧
      p'.index = p.index ∧ p'.downloaded = p.downloaded + 1 := by
  by_cases hanswer : s.sends.head? = some true → ∀ m, s.replies.head? ≠ some (some m)
  · obtain ⟨s'', hround⟩ := requestBlock_unanswered p hanswer
    rw [hround] at h
    cases h
  · obtain ⟨sends, replies, sent⟩ := s
    simp only [not_forall, not_not, List.head?_eq_some_iff] at hanswer
    obtain ⟨⟨sends, rfl⟩, m, replies, rfl⟩ := hanswer
    rw [requestBlock_eq] at h
    obtain ⟨⟨ok, q⟩, hrecv, hs⟩ := Option.map_eq_some_iff.mp h
    cases hs
    have hm : m.payloadLen < 2 ^ 64 := hmax m List.mem_cons_self
    have hans := answers_of_receiveBlock hm hrecv
    rw [receiveBlock_of_answers hans hm] at hrecv
    obtain ⟨buf, hwrite, hp⟩ := Option.map_eq_some_iff.mp hrecv
    cases hp
    exact ⟨m, rfl, rfl, rfl, hans, hwrite, rfl, rfl⟩

theorem requestsFrom_succ (index k count : Nat) :
    requestsFrom index k (count + 1) =
      requestMsg index (blockOffset k) :: requestsFrom index (k + 1) count := rfl

theorem exists_completes (hle : p.downloaded ≤ n)
    (hmax : ∀ m, some m ∈ s.replies → m.payloadLen < 2 ^ 64)
    (h : requestBlocks n fuel p s = some (true, p', s')) : ∃ ms, Completes n p s ms p' s' := by
  induction fuel generalizing p s with
  | zero => cases h
  | succ fuel ih =>
    by_cases hlt : p.downloaded < n
    · rw [requestBlocks_succ hlt] at h
      obtain ⟨⟨ok, q, t⟩, hround, hrest⟩ := Option.bind_eq_some_iff.mp h
      cases ok with
      | false => cases hrest
      | true =>
        change requestBlocks n fuel q t = _ at hrest
        obtain ⟨m, hsends, hreplies, hsent, hans, hwrite, hindex, hdown⟩ :=
          requestBlock_eq_true hmax hround
        have hmax' : ∀ m, some m ∈ t.replies → m.payloadLen < 2 ^ 64 := by
          intro m hm
          exact hmax m (hreplies ▸ List.mem_cons_of_mem _ hm)
        obtain ⟨ms, hms⟩ := ih (by omega) hmax' hrest
        have hanswers := hms.answers
        have hfilled := hms.filled
        rw [hindex, hdown] at hanswers
        rw [hdown] at hfilled
        refine ⟨m :: ms, ?_, ?_, ?_, ?_, ⟨hans, hanswers⟩, ?_, hms.index.trans hindex,
          hms.downloaded⟩
        · have hcount := hms.count
          rw [List.length_cons]
          omega
        · rw [hsends, hms.sends]
          rfl
        · rw [hreplies, hms.replies]
          rfl
        · rw [hms.sent, hsent, hindex, hdown, List.length_cons, requestsFrom_succ,
            List.append_assoc]
          rfl
        · rw [fillBlocks, hwrite]
          exact hfilled
    · rw [requestBlocks, if_neg hlt] at h
      cases h
      exact ⟨[], by simp; omega, rfl, rfl, by simp [requestsFrom], trivial, rfl, rfl, by omega⟩

theorem requestBlocks_of_answers {sends : List Bool} {replies : List (Option Message)}
    {sent : List Message} (hle : p.downloaded + ms.length ≤ n)
    (hans : AnswersFrom p.index p.downloaded ms) (hmax : ∀ m ∈ ms, m.payloadLen < 2 ^ 64) :
    requestBlocks n (ms.length + fuel) p
        ⟨List.replicate ms.length true ++ sends, ms.map some ++ replies, sent⟩ =
      (fillBlocks p.downloaded ms p.buf).bind fun buf =>
        requestBlocks n fuel ⟨p.index, buf, p.downloaded + ms.length⟩
          ⟨sends, replies, sent ++ requestsFrom p.index p.downloaded ms.length⟩ := by
  induction ms generalizing p sent with
  | nil => simp [fillBlocks, requestsFrom]
  | cons m ms ih =>
    rw [List.length_cons] at hle
    have hlt : p.downloaded < n := by omega
    rw [List.length_cons, Nat.add_right_comm, requestBlocks_succ hlt, List.replicate_succ,
      List.cons_append, List.map_cons, List.cons_append, requestBlock_eq,
      receiveBlock_of_answers hans.1 (hmax m List.mem_cons_self), fillBlocks]
    cases hwrite : writeAt p.buf (blockOffset p.downloaded) (blockOf m) with
    | none => rfl
    | some buf =>
      simp only [Option.map_some, Option.bind_some, Option.bind_eq_bind, Bool.not_true]
      have hle' : p.downloaded + 1 + ms.length ≤ n := by omega
      have hrest := @ih ⟨p.index, buf, p.downloaded + 1⟩
        (sent ++ [requestMsg p.index (blockOffset p.downloaded)]) hle' hans.2 fun q hq =>
          hmax q (List.mem_cons_of_mem _ hq)
      simp only [Bool.false_eq_true, if_false]
      rw [hrest, requestsFrom_succ]
      simp only [List.append_assoc, Nat.add_assoc, Nat.add_comm 1, List.cons_append,
        List.nil_append]

theorem downloadInto_of_answers {memory buf : List UInt8} {size : Nat}
    (hcount : ms.length = numBlocks size) (hans : AnswersFrom index 0 ms)
    (hmax : ∀ m ∈ ms, m.payloadLen < 2 ^ 64) (hfill : fillBlocks 0 ms memory = some buf)
    (sends : List Bool) (replies : List (Option Message)) (sent : List Message) :
    downloadInto memory index size
        ⟨List.replicate ms.length true ++ sends, ms.map some ++ replies, sent⟩ =
      some (true, ⟨index, buf, numBlocks size⟩,
        ⟨sends, replies, sent ++ requestsFrom index 0 ms.length⟩) := by
  have hle : (PieceProgress.mk index memory 0).downloaded + ms.length ≤ numBlocks size := by
    simp [hcount]
  rw [downloadInto, ← hcount, requestBlocks_of_answers (hcount.symm ▸ hle) hans hmax, hfill,
    Option.bind_some, requestBlocks, if_neg (by simp)]
  simp

theorem answers_pieceMsg (hindex : index < 2 ^ 31) (hoffset : blockOffset k < 2 ^ 31)
    (block : List UInt8) : Answers index k (pieceMsg index k block) := by
  have hdrop : (pieceMsg index k block).payload.drop PIECE_INDEX_BYTES =
      (luToBigEndian (blockOffset k) 4).2 ++ block :=
    List.drop_left' (luToBigEndian_length index 4)
  refine ⟨rfl, ?_, ?_⟩
  · exact bigEndianToLu_luToBigEndian _ (Nat.le_refl 4) hindex (hindex.trans (by decide))
  · rw [hdrop]
    exact bigEndianToLu_luToBigEndian block (Nat.le_refl 4) hoffset (hoffset.trans (by decide))

theorem blockOf_pieceMsg (index k : Nat) (block : List UInt8) :
    blockOf (pieceMsg index k block) = block := by
  change ((luToBigEndian index 4).2 ++ ((luToBigEndian (blockOffset k) 4).2 ++ block)).drop (4 + 4) =
    block
  rw [← List.drop_drop, List.drop_left' (luToBigEndian_length index 4),
    List.drop_left' (luToBigEndian_length (blockOffset k) 4)]

end BitTorrentBits.PieceProgress
