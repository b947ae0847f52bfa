import BitTorrentBits.Pieces.Rounds

/-!
# The blocks that are accepted

The requests truncate the index and the offset to four bytes, and the two numbers of an
answer are read with a sign. The comparison is made in 64 bits all the same: a block is
copied only under the index and the offset that stand in the message, and both are below
`2 ^ 31`.
-/

namespace BitTorrentBits.PieceProgress

/-- The piece index of a `Piece` message, without a sign. -/
def indexField (m : Message) : Nat := bigEndianValue (m.payload.take PIECE_INDEX_BYTES)

/-- The block offset of a `Piece` message, without a sign. -/
def offsetField (m : Message) : Nat :=
  bigEndianValue ((m.payload.drop PIECE_INDEX_BYTES).take BLOCK_OFFSET_BYTES)

/-- A `Piece` message for the next block of the piece. -/
def Matches (p : PieceProgress) (m : Message) : Prop :=
  m.id = MSG_ID_PIECE ∧ indexField m = p.index ∧ offsetField m = p.downloaded * BLOCK_SIZE

/-- The loop over `n` blocks comes from `(p, s)` to `(q, t)` by rounds that are taken. -/
inductive Reaches (n : Nat) (p : PieceProgress) (s : Session) : PieceProgress → Session → Prop
  | start : Reaches n p s p s
  | round {q q' : PieceProgress} {t t' : Session} (h : Reaches n p s q t) (hlt : q.downloaded < n)
      (hround : requestBlock q t = some (true, q', t')) : Reaches n p s q' t'

/-- The message matches, its numbers are below `2 ^ 31`, its block is copied to its offset,
and one more block has been downloaded. -/
structure TakesBlock (p : PieceProgress) (m : Message) (p' : PieceProgress) : Prop where
  isMatch : Matches p m
  index_lt : p.index < 2 ^ 31
  offset_lt : p.downloaded * BLOCK_SIZE < 2 ^ 31
  copied : writeAt p.buf (p.downloaded * BLOCK_SIZE) (blockOf m) = some p'.buf
  index : p'.index = p.index
  downloaded : p'.downloaded = p.downloaded + 1

variable {p q : PieceProgress} {m : Message} {s t : Session} {n fuel : Nat}

theorem blockOffset_of_lt {k : Nat} (h : k * BLOCK_SIZE < 2 ^ 64) :
    blockOffset k = k * BLOCK_SIZE := toULong_natCast h

theorem blockOffset_of_le {k : Nat} (h : k ≤ 2 ^ 17) : blockOffset k = k * BLOCK_SIZE := by
  apply blockOffset_of_lt
  unfold BLOCK_SIZE
  omega

private theorem field_eq {u v : Nat} (hu : u < 2 ^ 32) (hv : v < 2 ^ 63) :
    toULong (toInt u) = v ↔ u = v ∧ v < 2 ^ 31 := by
  rcases toULong_toInt_cases hu with ⟨hlow, hread⟩ | ⟨hhigh, hread⟩
  · rw [hread]
    omega
  · rw [hread]
    omega

theorem answers_iff_matches (hindex : p.index < 2 ^ 63)
    (hoffset : p.downloaded * BLOCK_SIZE < 2 ^ 63)
    (hlen : m.id = MSG_ID_PIECE → PIECE_INDEX_BYTES + BLOCK_OFFSET_BYTES ≤ m.payloadLen) :
    Answers p.index p.downloaded m ↔
      Matches p m ∧ p.index < 2 ^ 31 ∧ p.downloaded * BLOCK_SIZE < 2 ^ 31 := by
  unfold Answers Matches
  by_cases hid : m.id = MSG_ID_PIECE
  · have hfour : 4 ≤ m.payload.length := (Nat.le_add_right 4 4).trans (hlen hid)
    have hdrop : 4 ≤ (m.payload.drop 4).length := by
      have height : 4 + 4 ≤ m.payload.length := hlen hid
      rw [List.length_drop]
      omega
    have hi : bigEndianToLu m.payload PIECE_INDEX_BYTES = some (toULong (toInt (indexField m))) :=
      bigEndianToLu_take hfour
    have ho : bigEndianToLu (m.payload.drop PIECE_INDEX_BYTES) BLOCK_OFFSET_BYTES =
        some (toULong (toInt (offsetField m))) := bigEndianToLu_take hdrop
    have hilt : indexField m < 2 ^ 32 := bigEndianValue_take_lt _
    have holt : offsetField m < 2 ^ 32 := bigEndianValue_take_lt _
    rw [hi, ho, Option.some.injEq, Option.some.injEq,
      blockOffset_of_lt (hoffset.trans (by decide)), field_eq hilt hindex, field_eq holt hoffset]
    tauto
  · simp [hid]

private structure OnTheWay (p : PieceProgress) (s : Session) (q : PieceProgress) (t : Session) :
    Prop where
  index : q.index = p.index
  replies : ∀ reply ∈ t.replies, reply ∈ s.replies
  offset : q.downloaded * BLOCK_SIZE ≤ 2 ^ 31

private theorem onTheWay (hindex : p.index < 2 ^ 63) (hfirst : p.downloaded = 0)
    (hlen : ∀ m, some m ∈ s.replies → m.payloadLen < 2 ^ 64 ∧
      (m.id = MSG_ID_PIECE → PIECE_INDEX_BYTES + BLOCK_OFFSET_BYTES ≤ m.payloadLen))
    (h : Reaches n p s q t) : OnTheWay p s q t := by
  induction h with
  | start => exact ⟨rfl, fun _ h => h, by rw [hfirst]; decide⟩
  | @round q q' t t' h hlt hround ih =>
    obtain ⟨m, -, hreplies, -, hans, -, hi, hdown⟩ :=
      requestBlock_eq_true (fun m hm => (hlen m (ih.replies _ hm)).1) hround
    have hm : some m ∈ s.replies := ih.replies _ (hreplies ▸ List.mem_cons_self)
    have hbelow := (answers_iff_matches (ih.index ▸ hindex) (ih.offset.trans_lt (by decide))
      (hlen m hm).2).mp hans
    refine ⟨hi.trans ih.index, ?_, ?_⟩
    · intro reply hreply
      exact ih.replies reply (hreplies ▸ List.mem_cons_of_mem _ hreply)
    · have hoffset := hbelow.2.2
      unfold BLOCK_SIZE at hoffset ⊢
      omega

theorem Reaches.downloaded_le (h : Reaches n p s q t)
    (hmax : ∀ m, some m ∈ s.replies → m.payloadLen < 2 ^ 64) :
    p.downloaded ≤ q.downloaded ∧ ∀ reply ∈ t.replies, reply ∈ s.replies := by
  induction h with
  | start => exact ⟨Nat.le_refl _, fun _ h => h⟩
  | round h hlt hround ih =>
    obtain ⟨m, -, hreplies, -, -, -, -, hdown⟩ :=
      requestBlock_eq_true (fun m hm => hmax m (ih.2 _ hm)) hround
    refine ⟨by omega, ?_⟩
    intro reply hreply
    exact ih.2 reply (hreplies ▸ List.mem_cons_of_mem _ hreply)

theorem requestBlocks_of_reaches (h : Reaches n p s q t)
    (hmax : ∀ m, some m ∈ s.replies → m.payloadLen < 2 ^ 64) (fuel : Nat) :
    requestBlocks n (q.downloaded - p.downloaded + fuel) p s = requestBlocks n fuel q t := by
  induction h generalizing fuel with
  | start => rw [Nat.sub_self, Nat.zero_add]
  | @round q q' t t' h hlt hround ih =>
    obtain ⟨hle, hmem⟩ := h.downloaded_le hmax
    obtain ⟨m, -, -, -, -, -, -, hdown⟩ :=
      requestBlock_eq_true (fun m hm => hmax m (hmem _ hm)) hround
    have hfuel : q'.downloaded - p.downloaded + fuel = q.downloaded - p.downloaded + (fuel + 1) := by
      omega
    rw [hfuel, ih (fuel + 1), requestBlocks_succ hlt, hround]
    rfl

private theorem requestBlock_cases (hindex : q.index < 2 ^ 63)
    (hoffset : q.downloaded * BLOCK_SIZE < 2 ^ 63)
    (hlen : ∀ m, some m ∈ t.replies → m.payloadLen < 2 ^ 64 ∧
      (m.id = MSG_ID_PIECE → PIECE_INDEX_BYTES + BLOCK_OFFSET_BYTES ≤ m.payloadLen)) :
    (∃ m q' t', t.replies.head? = some (some m) ∧ requestBlock q t = some (true, q', t') ∧
      TakesBlock q m q') ∨
    (∃ m, t.replies.head? = some (some m) ∧ requestBlock q t = none ∧
      Matches q m ∧ q.buf.length < q.downloaded * BLOCK_SIZE + (blockOf m).length) ∨
    (∃ t', requestBlock q t = some (false, q, t') ∧
      ∀ m, t.sends.head? = some true → t.replies.head? = some (some m) →
        ¬ (Matches q m ∧ q.index < 2 ^ 31 ∧ q.downloaded * BLOCK_SIZE < 2 ^ 31)) := by
  by_cases hanswer : t.sends.head? = some true → ∀ m, t.replies.head? ≠ some (some m)
  · right
    right
    obtain ⟨t', hround⟩ := requestBlock_unanswered q hanswer
    exact ⟨t', hround, fun m hsend hm _ => hanswer hsend m hm⟩
  · obtain ⟨sends, replies, sent⟩ := t
    simp only [not_forall, not_not, List.head?_eq_some_iff] at hanswer
    obtain ⟨⟨sends, rfl⟩, m, replies, rfl⟩ := hanswer
    obtain ⟨hm, height⟩ := hlen m List.mem_cons_self
    have hiff := answers_iff_matches hindex hoffset height
    have hround := requestBlock_eq q m sends replies sent
    by_cases hans : Answers q.index q.downloaded m
    · rw [receiveBlock_of_answers hans hm, blockOffset_of_lt (hoffset.trans (by decide))] at hround
      obtain ⟨hmatch, hi, ho⟩ := hiff.mp hans
      cases hwrite : writeAt q.buf (q.downloaded * BLOCK_SIZE) (blockOf m) with
      | some buf =>
        left
        rw [hwrite] at hround
        exact ⟨m, _, _, rfl, hround, ⟨hmatch, hi, ho, hwrite, rfl, rfl⟩⟩
      | none =>
        right
        left
        rw [hwrite] at hround
        exact ⟨m, rfl, hround, hmatch, writeAt_eq_none.mp hwrite⟩
    · right
      right
      rw [receiveBlock_of_not_answers hans hm height] at hround
      refine ⟨_, hround, ?_⟩
      intro m' _ hm' hmatch
      cases hm'
      exact hans (hiff.mpr hmatch)

/-- Wherever the loop has come, the next round takes a block that matches, or would write it
past the end of the memory, or `download_piece` returns false with the piece as it is; the
last for every message that does not match, and for one that does with a number from
`2 ^ 31` on. -/
theorem takes_only_matching_blocks (memory : List UInt8) (index size : Nat) (s : Session)
    (hindex : index < 2 ^ 63)
    (hlen : ∀ m, some m ∈ s.replies → m.payloadLen < 2 ^ 64 ∧
      (m.id = MSG_ID_PIECE → PIECE_INDEX_BYTES + BLOCK_OFFSET_BYTES ≤ m.payloadLen))
    (h : Reaches (numBlocks size) ⟨index, memory, 0⟩ s q t) (hlt : q.downloaded < numBlocks size) :
    (∃ m q' t', t.replies.head? = some (some m) ∧ requestBlock q t = some (true, q', t') ∧
      TakesBlock q m q') ∨
    (∃ m, t.replies.head? = some (some m) ∧ downloadInto memory index size s = none ∧
      Matches q m ∧ q.buf.length < q.downloaded * BLOCK_SIZE + (blockOf m).length) ∨
    (∃ t', downloadInto memory index size s = some (false, q, t') ∧
      ∀ m, t.sends.head? = some true → t.replies.head? = some (some m) →
        ¬ (Matches q m ∧ q.index < 2 ^ 31 ∧ q.downloaded * BLOCK_SIZE < 2 ^ 31)) := by
  have hway := onTheWay hindex rfl hlen h
  have hmax : ∀ m, some m ∈ s.replies → m.payloadLen < 2 ^ 64 := fun m hm => (hlen m hm).1
  have hrun : downloadInto memory index size s =
      (requestBlock q t).bind fun r =>
        if !r.1 then some (false, r.2.1, r.2.2)
        else requestBlocks (numBlocks size) (numBlocks size - q.downloaded) r.2.1 r.2.2 := by
    have hfuel : numBlocks size + 1 = q.downloaded - 0 + (numBlocks size - q.downloaded + 1) := by
      omega
    rw [downloadInto, hfuel, requestBlocks_of_reaches h hmax, requestBlocks_succ hlt]
  have hround := requestBlock_cases (hway.index ▸ hindex) (hway.offset.trans_lt (by decide))
    fun m hm => hlen m (hway.replies _ hm)
  rcases hround with htakes | ⟨m, hm, hnone, hpast⟩ | ⟨t', hfails, hnot⟩
  · exact Or.inl htakes
  · refine Or.inr (Or.inl ⟨m, hm, ?_, hpast⟩)
    rw [hrun, hnone]
    rfl
  · refine Or.inr (Or.inr ⟨t', ?_, hnot⟩)
    rw [hrun, hfails]
    rfl

/-- A stale `Piece` message for piece 0 comes in answer to the request for piece 1. -/
theorem takes_only_matching_blocks_stale :
    ∃ t', downloadInto [0] 1 1 ⟨[true], [some ⟨MSG_ID_PIECE, [0, 0, 0, 0, 0, 0, 0, 0, 9]⟩], []⟩ =
      some (false, ⟨1, [0], 0⟩, t') := by
  have hone : numBlocks 1 = 1 := by decide
  rcases takes_only_matching_blocks [0] 1 1
    ⟨[true], [some ⟨MSG_ID_PIECE, [0, 0, 0, 0, 0, 0, 0, 0, 9]⟩], []⟩ (by decide)
    (by simp [Message.payloadLen, PIECE_INDEX_BYTES, BLOCK_OFFSET_BYTES]) .start
    (by rw [hone]; decide) with ⟨m, q', t', hm, -, htakes⟩ | ⟨m, hm, -, hmatch, -⟩ | ⟨t', hrun, -⟩
  · cases hm
    have hindex := htakes.isMatch.2.1
    contradiction
  · cases hm
    have hindex := hmatch.2.1
    contradiction
  · exact ⟨t', hrun⟩

end BitTorrentBits.PieceProgress
