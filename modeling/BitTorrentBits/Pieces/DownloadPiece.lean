import BitTorrentBits.Pieces.DownloadedFile
import BitTorrentBits.Wire.Message

/-!
# Downloading a piece

`download_piece` of `client.c`: one `Request` for each block, and one message read in
answer to it. The answer is copied into the buffer of the piece at the place it names.
-/

namespace BitTorrentBits

/-- `PIECE_INDEX_BYTES`, the bytes of the piece index in a payload. -/
def PIECE_INDEX_BYTES : Nat := 4

/-- `BLOCK_OFFSET_BYTES`, the bytes of the block offset in a payload. -/
def BLOCK_OFFSET_BYTES : Nat := 4

/-- `BLOCK_LENGTH_BYTES`, the bytes of the block length in a `Request`. -/
def BLOCK_LENGTH_BYTES : Nat := 4

def BLOCK_SIZE : Nat := 16384

def MSG_ID_REQUEST : UInt8 := 6

def MSG_ID_PIECE : UInt8 := 7

/-- A connection at the level of messages: whether each send goes through, what each read
returns, NULL included, and what has been sent. -/
structure Session where
  sends : List Bool
  replies : List (Option Message)
  sent : List Message

namespace Session

def sendMessageToConn (s : Session) (m : Message) : Bool × Session :=
  match s.sends with
  | true :: sends => (true, { s with sends := sends, sent := s.sent ++ [m] })
  | _ => (false, { s with sends := s.sends.tail })

def readMessageFromConn (s : Session) : Option Message × Session :=
  match s.replies with
  | reply :: replies => (reply, { s with replies := replies })
  | [] => (none, s)

end Session

namespace PieceProgress

def numBlocks (size : Nat) : Nat := toULong (size / BLOCK_SIZE + size % BLOCK_SIZE : Nat)

def blockOffset (downloaded : Nat) : Nat := toULong (downloaded * BLOCK_SIZE : Nat)

/-- The payload of a `Request`, and whether its three numbers could be written. -/
def requestMsgPayload (index offset : Nat) : Bool × List UInt8 :=
  let (ok, indexBytes) := luToBigEndian index PIECE_INDEX_BYTES
  let (ok', offsetBytes) := luToBigEndian offset BLOCK_OFFSET_BYTES
  let (ok'', lengthBytes) := luToBigEndian BLOCK_SIZE BLOCK_LENGTH_BYTES
  (ok && ok' && ok'', indexBytes ++ offsetBytes ++ lengthBytes)

/-- What is done with the message read in answer to the request for the block at
`offset`. `none` is an access outside the payload or outside the buffer of the piece. -/
def receiveBlock (p : PieceProgress) (offset : Nat) (m : Message) :
    Option (Bool × PieceProgress) :=
  if m.id ≠ MSG_ID_PIECE then some (false, p)
  else do
    let gotPieceIndex ← bigEndianToLu m.payload PIECE_INDEX_BYTES
    let gotBlockOffset ← bigEndianToLu (m.payload.drop PIECE_INDEX_BYTES) BLOCK_OFFSET_BYTES
    let gotBlockSize := toULong (m.payloadLen - PIECE_INDEX_BYTES - BLOCK_OFFSET_BYTES)
    if p.index ≠ gotPieceIndex then return (false, p)
    if offset ≠ gotBlockOffset then return (false, p)
    let block ← readAt m.payload (PIECE_INDEX_BYTES + BLOCK_OFFSET_BYTES) gotBlockSize
    let buf ← writeAt p.buf gotBlockOffset block
    return (true, { p with buf := buf, downloaded := p.downloaded + 1 })

def requestBlock (p : PieceProgress) (s : Session) : Option (Bool × PieceProgress × Session) :=
  let offset := blockOffset p.downloaded
  let (ok, payload) := requestMsgPayload p.index offset
  if !ok then some (false, p, s)
  else do
    let msgRequest ← Message.initMessage MSG_ID_REQUEST
      (PIECE_INDEX_BYTES + BLOCK_OFFSET_BYTES + BLOCK_LENGTH_BYTES) payload
    let (ok, s') := s.sendMessageToConn msgRequest
    if !ok then return (false, p, s')
    match s'.readMessageFromConn with
    | (none, s'') => return (false, p, s'')
    | (some recvPieceMsg, s'') =>
      let (ok, p') ← receiveBlock p offset recvPieceMsg
      return (ok, p', s'')

/-- The loop over the blocks, in at most `fuel` rounds; running out of them is `none`. -/
def requestBlocks (numBlocks : Nat) :
    Nat → PieceProgress → Session → Option (Bool × PieceProgress × Session)
  | 0, _, _ => none
  | fuel + 1, p, s =>
    if p.downloaded < numBlocks then do
      let (ok, p', s') ← requestBlock p s
      if !ok then return (false, p', s')
      requestBlocks numBlocks fuel p' s'
    else some (true, p, s)

/-- Every round but the last adds one to `downloaded`. -/
def downloadPiece (p : PieceProgress) (s : Session) : Option (Bool × PieceProgress × Session) :=
  requestBlocks (numBlocks p.size) (numBlocks p.size + 1) p s

/-- The message answers the request for block `k` of piece `index`. -/
def Answers (index k : Nat) (m : Message) : Prop :=
  m.id = MSG_ID_PIECE ∧ bigEndianToLu m.payload PIECE_INDEX_BYTES = some index ∧
    bigEndianToLu (m.payload.drop PIECE_INDEX_BYTES) BLOCK_OFFSET_BYTES = some (blockOffset k)

/-- A `Piece` message has room for its two numbers, and its block, if it is the block
requested, ends inside the piece. -/
def BlockFits (index size k : Nat) (m : Message) : Prop :=
  m.id = MSG_ID_PIECE → PIECE_INDEX_BYTES + BLOCK_OFFSET_BYTES ≤ m.payloadLen ∧
    (Answers index k m →
      blockOffset k + (m.payloadLen - (PIECE_INDEX_BYTES + BLOCK_OFFSET_BYTES)) ≤ size)

/-- What is read in answer to a request fits, as long as all requests before it have been
answered with the blocks they were for. -/
def BlocksFit (index size : Nat) (s : Session) : Prop :=
  ∀ k < numBlocks size,
    (∀ j < k, s.sends[j]? = some true ∧ ∃ m, s.replies[j]? = some (some m) ∧ Answers index j m) →
    s.sends[k]? = some true → ∀ m, s.replies[k]? = some (some m) → BlockFits index size k m

inductive Reads (numBlocks : Nat) : PieceProgress → Session → Message → Prop
  | now {p : PieceProgress} {s : Session} {m : Message} (hlt : p.downloaded < numBlocks)
      (hsend : s.sends.head? = some true) (hread : s.replies.head? = some (some m)) :
      Reads numBlocks p s m
  | later {p p' : PieceProgress} {s s' : Session} {m : Message} (hlt : p.downloaded < numBlocks)
      (hround : requestBlock p s = some (true, p', s')) (hread : Reads numBlocks p' s' m) :
      Reads numBlocks p s m

/-- No access of `download_piece` leaves the payload it reads or the buffer of the piece,
and `payload_len - PIECE_INDEX_BYTES - BLOCK_OFFSET_BYTES` never wraps. -/
def StaysInside (p : PieceProgress) (s : Session) : Prop :=
  downloadPiece p s ≠ none ∧ ∀ m, Reads (numBlocks p.size) p s m → m.id = MSG_ID_PIECE →
    PIECE_INDEX_BYTES + BLOCK_OFFSET_BYTES ≤ m.payloadLen

variable {p : PieceProgress} {m : Message} {offset index size k : Nat}

def requestMsg (index offset : Nat) : Message :=
  ⟨MSG_ID_REQUEST, (requestMsgPayload index offset).2⟩

theorem requestMsg_payload (index offset : Nat) :
    (requestMsg index offset).payload =
      (luToBigEndian index 4).2 ++ ((luToBigEndian offset 4).2 ++ (luToBigEndian BLOCK_SIZE 4).2) := by
  simp [requestMsg, requestMsgPayload, PIECE_INDEX_BYTES, BLOCK_OFFSET_BYTES, BLOCK_LENGTH_BYTES,
    List.append_assoc]

theorem requestMsgPayload_eq (index offset : Nat) :
    requestMsgPayload index offset = (true, (requestMsg index offset).payload) ∧
      Message.initMessage MSG_ID_REQUEST
        (PIECE_INDEX_BYTES + BLOCK_OFFSET_BYTES + BLOCK_LENGTH_BYTES)
        (requestMsg index offset).payload = some (requestMsg index offset) := by
  have hlen : (requestMsg index offset).payload.length = 12 := by
    simp [requestMsg, requestMsgPayload, PIECE_INDEX_BYTES, BLOCK_OFFSET_BYTES,
      BLOCK_LENGTH_BYTES]
  constructor
  · simp [requestMsg, requestMsgPayload]
  · have hread : readAt (requestMsg index offset).payload 0 12 =
        some (((requestMsg index offset).payload.drop 0).take 12) :=
      readAt_of_le (Nat.le_of_eq hlen.symm)
    rw [Message.initMessage, PIECE_INDEX_BYTES, BLOCK_OFFSET_BYTES, BLOCK_LENGTH_BYTES, hread,
      List.drop_zero, ← hlen, List.take_length]
    rfl

theorem requestBlock_eq (p : PieceProgress) (m : Message) (sends : List Bool)
    (replies : List (Option Message)) (sent : List Message) :
    requestBlock p ⟨true :: sends, some m :: replies, sent⟩ =
      (receiveBlock p (blockOffset p.downloaded) m).map fun r =>
        (r.1, r.2, ⟨sends, replies, sent ++ [requestMsg p.index (blockOffset p.downloaded)]⟩) := by
  obtain ⟨hpayload, hinit⟩ := requestMsgPayload_eq p.index (blockOffset p.downloaded)
  simp only [requestBlock, hpayload, hinit, Bool.not_true]
  cases h : receiveBlock p (blockOffset p.downloaded) m <;>
    simp [Session.sendMessageToConn, Session.readMessageFromConn, h]

theorem requestBlock_unanswered (p : PieceProgress) {s : Session}
    (h : s.sends.head? = some true → ∀ m, s.replies.head? ≠ some (some m)) :
    ∃ s', requestBlock p s = some (false, p, s') := by
  obtain ⟨hpayload, hinit⟩ := requestMsgPayload_eq p.index (blockOffset p.downloaded)
  obtain ⟨sends, replies, sent⟩ := s
  simp only [requestBlock, hpayload, hinit]
  cases sends with
  | nil => exact ⟨_, rfl⟩
  | cons ok sends =>
    cases ok with
    | false => exact ⟨_, rfl⟩
    | true =>
      cases replies with
      | nil => exact ⟨_, rfl⟩
      | cons reply replies =>
        cases reply with
        | none => exact ⟨_, rfl⟩
        | some m => exact (h rfl m rfl).elim

theorem receiveBlock_of_id_ne (h : m.id ≠ MSG_ID_PIECE) :
    receiveBlock p offset m = some (false, p) := if_pos h

theorem receiveBlock_short (h : m.id = MSG_ID_PIECE) (hlen : m.payloadLen < 8) :
    receiveBlock p offset m = none := by
  change m.payload.length < 8 at hlen
  rw [receiveBlock, if_neg (not_not.mpr h)]
  by_cases hindex : m.payload.length < 4
  · rw [show bigEndianToLu m.payload PIECE_INDEX_BYTES = none from bigEndianToLu_eq_none hindex]
    rfl
  · have hdrop : (m.payload.drop 4).length < 4 := by
      rw [List.length_drop]
      omega
    obtain ⟨v, hv⟩ := bigEndianToLu_isSome (Nat.le_refl 4) (Nat.le_of_not_lt hindex)
    rw [show bigEndianToLu m.payload PIECE_INDEX_BYTES = some v from hv,
      show bigEndianToLu (m.payload.drop PIECE_INDEX_BYTES) BLOCK_OFFSET_BYTES = none from
        bigEndianToLu_eq_none hdrop]
    rfl

theorem receiveBlock_long (h : m.id = MSG_ID_PIECE) (hlen : 8 ≤ m.payloadLen)
    (hmax : m.payloadLen < 2 ^ 64) (k : Nat) :
    (¬ Answers p.index k m ∧ receiveBlock p (blockOffset k) m = some (false, p)) ∨
    (Answers p.index k m ∧ receiveBlock p (blockOffset k) m =
      (writeAt p.buf (blockOffset k) (m.payload.drop 8)).map fun buf =>
        (true, { p with buf := buf, downloaded := p.downloaded + 1 })) := by
  change 8 ≤ m.payload.length at hlen
  have hdrop : 4 ≤ (m.payload.drop 4).length := by
    rw [List.length_drop]
    omega
  obtain ⟨v, hv⟩ := bigEndianToLu_isSome (Nat.le_refl 4) (show 4 ≤ m.payload.length by omega)
  obtain ⟨w, hw⟩ := bigEndianToLu_isSome (Nat.le_refl 4) hdrop
  have hindex : bigEndianToLu m.payload PIECE_INDEX_BYTES = some v := hv
  have hoffset : bigEndianToLu (m.payload.drop PIECE_INDEX_BYTES) BLOCK_OFFSET_BYTES = some w := hw
  have hsize : toULong (m.payloadLen - PIECE_INDEX_BYTES - BLOCK_OFFSET_BYTES) =
      m.payload.length - 8 := by
    change toULong ((m.payload.length : Int) - 4 - 4) = _
    change m.payload.length < 2 ^ 64 at hmax
    rw [Int.sub_sub]
    exact toULong_sub hlen hmax
  have hblock : readAt m.payload (PIECE_INDEX_BYTES + BLOCK_OFFSET_BYTES) (m.payload.length - 8) =
      some (m.payload.drop 8) := by
    change readAt m.payload 8 _ = _
    rw [readAt_of_le (by omega), List.take_of_length_le (by rw [List.length_drop])]
  rw [receiveBlock, if_neg (not_not.mpr h)]
  simp only [Answers, h, hindex, hoffset, Option.some.injEq, true_and, Option.bind_eq_bind,
    Option.bind_some, hsize]
  by_cases hi : v = p.index
  · by_cases ho : w = blockOffset k
    · right
      rw [if_neg (not_not.mpr hi.symm), if_neg (not_not.mpr ho.symm), hblock, ho,
        Option.bind_some]
      refine ⟨⟨hi, rfl⟩, ?_⟩
      cases writeAt p.buf (blockOffset k) (m.payload.drop 8) <;> rfl
    · left
      rw [if_neg (not_not.mpr hi.symm), if_pos (Ne.symm ho)]
      exact ⟨fun hboth => ho hboth.2, rfl⟩
  · left
    rw [if_pos (Ne.symm hi)]
    exact ⟨fun hboth => hi hboth.1, rfl⟩

/-- What a message read for block `k` leads to: it is turned down, it breaks the bounds, or
its block is taken into the buffer. -/
theorem receiveBlock_cases (p : PieceProgress) (hmax : m.payloadLen < 2 ^ 64) (k : Nat) :
    (receiveBlock p (blockOffset k) m = some (false, p) ∧ BlockFits p.index p.size k m ∧
      ¬ Answers p.index k m) ∨
    (receiveBlock p (blockOffset k) m = none ∧ ¬ BlockFits p.index p.size k m) ∨
    (∃ p', receiveBlock p (blockOffset k) m = some (true, p') ∧ p'.index = p.index ∧
      p'.size = p.size ∧ p'.downloaded = p.downloaded + 1 ∧ BlockFits p.index p.size k m ∧
      Answers p.index k m) := by
  by_cases hid : m.id = MSG_ID_PIECE
  · by_cases hlen : 8 ≤ m.payloadLen
    · rcases receiveBlock_long (p := p) hid hlen hmax k with ⟨hnot, hrecv⟩ | ⟨hans, hrecv⟩
      · exact Or.inl ⟨hrecv, fun _ => ⟨hlen, fun hans => (hnot hans).elim⟩, hnot⟩
      · right
        have hdrop : (m.payload.drop 8).length = m.payloadLen - 8 := List.length_drop
        by_cases hfit : blockOffset k + (m.payloadLen - 8) ≤ p.size
        · right
          have hwrite : writeAt p.buf (blockOffset k) (m.payload.drop 8) = some _ :=
            writeAt_of_le (hdrop ▸ hfit)
          rw [hwrite] at hrecv
          exact ⟨_, hrecv, rfl, writeAt_length hwrite, rfl, fun _ => ⟨hlen, fun _ => hfit⟩, hans⟩
        · left
          have hwrite : writeAt p.buf (blockOffset k) (m.payload.drop 8) = none := by
            rw [writeAt_eq_none, hdrop]
            exact Nat.lt_of_not_le hfit
          rw [hwrite] at hrecv
          exact ⟨hrecv, fun hblock => hfit ((hblock hid).2 hans)⟩
    · right
      left
      exact ⟨receiveBlock_short hid (Nat.lt_of_not_le hlen), fun hblock => hlen (hblock hid).1⟩
  · left
    exact ⟨receiveBlock_of_id_ne hid, fun h => (hid h).elim, fun h => hid h.1⟩

private def FitsFrom (index size numBlocks k : Nat) (sends : List Bool)
    (replies : List (Option Message)) : Prop :=
  ∀ j, k + j < numBlocks →
    (∀ i < j, sends[i]? = some true ∧ ∃ m, replies[i]? = some (some m) ∧ Answers index (k + i) m) →
    sends[j]? = some true → ∀ m, replies[j]? = some (some m) → BlockFits index size (k + j) m

private theorem fitsFrom_cons {n : Nat} (hk : k < n) {sends : List Bool}
    {replies : List (Option Message)} :
    FitsFrom index size n k (true :: sends) (some m :: replies) ↔
      BlockFits index size k m ∧
        (Answers index k m → FitsFrom index size n (k + 1) sends replies) := by
  constructor
  · intro h
    refine ⟨h 0 hk (fun i hi => by omega) rfl m rfl, ?_⟩
    intro hm j hj hbefore hsend q hq
    have hlater := h (j + 1) (by omega) ?_ hsend q hq
    · rwa [Nat.add_right_comm k 1 j]
    · intro i hi
      cases i with
      | zero => exact ⟨rfl, m, rfl, hm⟩
      | succ i =>
        obtain ⟨hs, r, hr, hr'⟩ := hbefore i (by omega)
        exact ⟨hs, r, hr, Nat.add_right_comm k 1 i ▸ hr'⟩
  · rintro ⟨hfirst, hrest⟩ j hj hbefore hsend q hq
    cases j with
    | zero =>
      cases hq
      exact hfirst
    | succ j =>
      obtain ⟨-, r, hr, hm⟩ := hbefore 0 (Nat.succ_pos j)
      cases hr
      have hlater := hrest hm j (by omega) ?_ hsend q hq
      · rwa [Nat.add_right_comm k 1 j] at hlater
      · intro i hi
        obtain ⟨hs, r, hr, hr'⟩ := hbefore (i + 1) (by omega)
        exact ⟨hs, r, hr, (Nat.add_right_comm k 1 i).symm ▸ hr'⟩

private theorem fitsFrom_unanswered {n : Nat} {sends : List Bool}
    {replies : List (Option Message)}
    (h : sends.head? = some true → ∀ m, replies.head? ≠ some (some m)) :
    FitsFrom index size n k sends replies := by
  intro j _ hbefore hsend q hq
  rw [List.head?_eq_getElem?, List.head?_eq_getElem?] at h
  cases j with
  | zero => exact (h hsend q hq).elim
  | succ j =>
    obtain ⟨hs, r, hr, -⟩ := hbefore 0 (Nat.succ_pos j)
    exact (h hs r hr).elim

private def HasNumbers (m : Message) : Prop :=
  m.id = MSG_ID_PIECE → PIECE_INDEX_BYTES + BLOCK_OFFSET_BYTES ≤ m.payloadLen

private def Inside (n fuel : Nat) (p : PieceProgress) (s : Session) : Prop :=
  requestBlocks n fuel p s ≠ none ∧ ∀ m, Reads n p s m → HasNumbers m

variable {n fuel : Nat} {p' : PieceProgress} {s s' : Session}

theorem requestBlocks_succ (hlt : p.downloaded < n) :
    requestBlocks n (fuel + 1) p s = (requestBlock p s).bind fun r =>
      if !r.1 then some (false, r.2.1, r.2.2) else requestBlocks n fuel r.2.1 r.2.2 := by
  rw [requestBlocks, if_pos hlt]
  rfl

private theorem inside_stop (hlt : p.downloaded < n)
    (hround : requestBlock p s = some (false, p', s')) :
    Inside n (fuel + 1) p s ↔
      (s.sends.head? = some true → ∀ m, s.replies.head? = some (some m) → HasNumbers m) := by
  constructor
  · intro h hsend m hread
    exact h.2 m (.now hlt hsend hread)
  · intro h
    constructor
    · rw [requestBlocks_succ hlt, hround]
      simp
    · intro m hm
      cases hm with
      | now _ hsend hread => exact h hsend m hread
      | later _ hround' _ =>
        rw [hround] at hround'
        cases hround'

private theorem inside_later (hlt : p.downloaded < n)
    (hround : requestBlock p s = some (true, p', s')) :
    Inside n (fuel + 1) p s ↔
      (s.sends.head? = some true → ∀ m, s.replies.head? = some (some m) → HasNumbers m) ∧
        Inside n fuel p' s' := by
  have hrun : requestBlocks n (fuel + 1) p s = requestBlocks n fuel p' s' := by
    rw [requestBlocks_succ hlt, hround]
    rfl
  constructor
  · intro h
    refine ⟨fun hsend m hread => h.2 m (.now hlt hsend hread), hrun ▸ h.1, ?_⟩
    intro m hm
    exact h.2 m (.later hlt hround hm)
  · rintro ⟨hnow, hrest⟩
    refine ⟨hrun ▸ hrest.1, ?_⟩
    intro m hm
    cases hm with
    | now _ hsend hread => exact hnow hsend m hread
    | later _ hround' hm =>
      rw [hround] at hround'
      cases hround'
      exact hrest.2 m hm

private theorem not_inside_of_fault (hlt : p.downloaded < n) (hround : requestBlock p s = none) :
    ¬ Inside n (fuel + 1) p s := by
  intro h
  apply h.1
  rw [requestBlocks_succ hlt, hround]
  rfl

private theorem inside_iff_fitsFrom (hpos : 0 < fuel) (hfuel : n < p.downloaded + fuel)
    (hmax : ∀ m, some m ∈ s.replies → m.payloadLen < 2 ^ 64) :
    Inside n fuel p s ↔ FitsFrom p.index p.size n p.downloaded s.sends s.replies := by
  induction fuel generalizing p s with
  | zero => omega
  | succ fuel ih =>
    by_cases hlt : p.downloaded < n
    · by_cases hanswer : s.sends.head? = some true → ∀ m, s.replies.head? ≠ some (some m)
      · obtain ⟨s', hround⟩ := requestBlock_unanswered p hanswer
        rw [inside_stop hlt hround]
        exact iff_of_true (fun hsend m hread => (hanswer hsend m hread).elim)
          (fitsFrom_unanswered hanswer)
      · obtain ⟨sends, replies, sent⟩ := s
        simp only [not_forall, not_not, List.head?_eq_some_iff] at hanswer
        obtain ⟨⟨sends, rfl⟩, m, replies, rfl⟩ := hanswer
        have hm : m.payloadLen < 2 ^ 64 := hmax m List.mem_cons_self
        have hnow : (some true = some true → ∀ q, some (some m) = some (some q) → HasNumbers q) ↔
            HasNumbers m := by simp
        have hround := requestBlock_eq p m sends replies sent
        rw [fitsFrom_cons hlt]
        rcases receiveBlock_cases p hm p.downloaded with ⟨hrecv, hfits, hnot⟩ | ⟨hrecv, hnot⟩ |
          ⟨p', hrecv, hindex, hsize, hdown, hfits, hans⟩
        · rw [hrecv] at hround
          rw [inside_stop hlt hround]
          exact iff_of_true (hnow.mpr fun hid => (hfits hid).1) ⟨hfits, fun h => (hnot h).elim⟩
        · rw [hrecv] at hround
          exact iff_of_false (not_inside_of_fault hlt hround) fun h => hnot h.1
        · rw [hrecv] at hround
          have hrest := ih (by omega) (by omega)
            (s := ⟨sends, replies, sent ++ [requestMsg p.index (blockOffset p.downloaded)]⟩)
            (fun q hq => hmax q (List.mem_cons_of_mem _ hq)) (p := p')
          rw [hindex, hsize, hdown] at hrest
          rw [inside_later hlt hround, hrest]
          constructor
          · rintro ⟨-, hlater⟩
            exact ⟨hfits, fun _ => hlater⟩
          · rintro ⟨-, hlater⟩
            exact ⟨hnow.mpr fun hid => (hfits hid).1, hlater hans⟩
    · constructor
      · intro _ j hj
        omega
      · intro _
        constructor
        · rw [requestBlocks, if_neg hlt]
          simp
        · intro m hm
          cases hm with
          | now hlt' _ _ => contradiction
          | later hlt' _ _ => contradiction

/-- For a piece freshly begun, over every sequence of answers, `download_piece` stays
inside its buffers exactly when the blocks it is sent fit. -/
theorem staysInside_iff_blocksFit (index size : Nat) (fresh : Nat → UInt8) (s : Session)
    (hmax : ∀ m, some m ∈ s.replies → m.payloadLen < 2 ^ 64) :
    StaysInside (initPieceProgress index size fresh) s ↔ BlocksFit index size s := by
  have hsize := initPieceProgress_size index size fresh
  have hfits : FitsFrom index size (numBlocks size) 0 s.sends s.replies ↔ BlocksFit index size s := by
    simp only [FitsFrom, BlocksFit, Nat.zero_add]
  have hinside := inside_iff_fitsFrom (n := numBlocks size)
    (p := initPieceProgress index size fresh) (Nat.succ_pos (numBlocks size))
    (Nat.lt_of_lt_of_le (Nat.lt_succ_self _) (Nat.le_add_left _ _)) hmax
  rw [hsize] at hinside
  rw [← hfits]
  unfold StaysInside downloadPiece
  rw [hsize]
  exact hinside

/-- One byte to download, and a `Piece` message without a payload in answer. -/
theorem staysInside_empty_payload :
    ¬ ∀ (index size : Nat) (fresh : Nat → UInt8) (s : Session),
      (∀ m, some m ∈ s.replies → m.payloadLen < 2 ^ 64) →
      StaysInside (initPieceProgress index size fresh) s := by
  intro h
  have hinside := h 0 1 (fun _ => 0) ⟨[true], [some ⟨MSG_ID_PIECE, []⟩], []⟩
    (by simp [Message.payloadLen])
  exact hinside.1 rfl

/-- One byte to download, and the block with this byte in answer. -/
theorem staysInside_iff_blocksFit_one :
    StaysInside (initPieceProgress 0 1 fun _ => 0)
      ⟨[true], [some ⟨MSG_ID_PIECE, [0, 0, 0, 0, 0, 0, 0, 0, 9]⟩], []⟩ := by
  apply (staysInside_iff_blocksFit 0 1 _ _ (by simp [Message.payloadLen])).mpr
  intro k hk _ _ m hm
  have hzero : k = 0 := by
    have hone : numBlocks 1 = 1 := by decide
    omega
  subst hzero
  cases hm
  exact fun _ => ⟨by decide, fun _ => by decide⟩

end PieceProgress

end BitTorrentBits
