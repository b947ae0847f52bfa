import BitTorrentBits.Pieces.Coverage
import BitTorrentBits.Pieces.PieceOverLink

/-!
# A piece that is sent whole

A peer that answers the requests for a piece with its blocks, over a link on which they can be
sent. The blocks that are asked for make up the piece where it has no rest, or one byte.
-/

namespace BitTorrentBits

open Message

namespace PieceProgress

/-- The `Piece` messages for a piece of `size` bytes, one for each request. -/
def pieceMsgs (size index : Nat) (whole : List UInt8) : List Message :=
  (List.range (numBlocks size)).map fun k =>
    pieceMsg index k ((whole.drop (k * BLOCK_SIZE)).take BLOCK_SIZE)

/-- Whole blocks, or one byte more, which is a block of its own. -/
def Divides (size : Nat) : Prop := size ≤ 2 ^ 31 ∧ size % BLOCK_SIZE ≤ 1

variable {size index k : Nat} {whole memory : List UInt8} {m : Message} {ms : List Message}

@[simp] theorem pieceMsgs_length (size index : Nat) (whole : List UInt8) :
    (pieceMsgs size index whole).length = numBlocks size := by simp [pieceMsgs]

theorem pieceMsgs_eq_some (h : (pieceMsgs size index whole)[k]? = some m) :
    k < numBlocks size ∧
      m = pieceMsg index k ((whole.drop (k * BLOCK_SIZE)).take BLOCK_SIZE) := by
  rw [pieceMsgs, List.getElem?_map, Option.map_eq_some_iff] at h
  obtain ⟨j, hj, rfl⟩ := h
  obtain ⟨hlt, rfl⟩ := List.getElem?_eq_some_iff.mp hj
  rw [List.length_range] at hlt
  simp only [List.getElem_range]
  exact ⟨hlt, trivial⟩

theorem answersFrom_of_get (h : ∀ j m, ms[j]? = some m → Answers index (k + j) m) :
    AnswersFrom index k ms := by
  induction ms generalizing k with
  | nil => trivial
  | cons m ms ih =>
    refine ⟨h 0 m rfl, ih fun j m' hm' => ?_⟩
    have hanswer := h (j + 1) m' hm'
    rwa [Nat.add_assoc, Nat.add_comm 1]

theorem Divides.blockOffset_lt (h : Divides size) (hk : k < numBlocks size) :
    blockOffset k = k * BLOCK_SIZE ∧ k * BLOCK_SIZE < size := by
  obtain ⟨hmax, hrest⟩ := h
  rw [numBlocks_eq (hmax.trans_lt (by decide))] at hk
  have hdiv := Nat.div_add_mod size BLOCK_SIZE
  have hlt : k * BLOCK_SIZE < size := by
    unfold BLOCK_SIZE at *
    omega
  exact ⟨blockOffset_of_lt (hlt.trans_le (hmax.trans (by decide))), hlt⟩

theorem answersFrom_pieceMsgs (hindex : index < 2 ^ 31) (h : Divides size) (whole : List UInt8) :
    AnswersFrom index 0 (pieceMsgs size index whole) := by
  apply answersFrom_of_get
  intro j m hm
  obtain ⟨hj, rfl⟩ := pieceMsgs_eq_some hm
  obtain ⟨hoffset, hlt⟩ := h.blockOffset_lt hj
  rw [Nat.zero_add]
  exact answers_pieceMsg hindex (by rw [hoffset]; exact hlt.trans_le h.1) _

theorem fillBlocks_pieceMsgs (hindex : index < 2 ^ 31) (h : Divides size)
    (hwhole : whole.length = size) (hlen : memory.length = size) :
    fillBlocks 0 (pieceMsgs size index whole) memory = some whole := by
  obtain ⟨buf, hbuf⟩ : ∃ buf, fillBlocks 0 (pieceMsgs size index whole) memory = some buf := by
    apply exists_fillBlocks
    intro j m hm
    obtain ⟨hj, rfl⟩ := pieceMsgs_eq_some hm
    obtain ⟨hoffset, hlt⟩ := h.blockOffset_lt hj
    rw [Nat.zero_add, hoffset, blockOf_pieceMsg, List.length_take, List.length_drop, hlen, hwhole]
    omega
  have hmax : whole.length < 2 ^ 64 := by
    rw [hwhole]
    exact h.1.trans_lt (by decide)
  rw [hbuf, eq_of_fillBlocks hmax (by rw [pieceMsgs_length, hwhole])
    (answersFrom_pieceMsgs hindex h whole) (fun j m hm => ?_) (hlen.trans hwhole.symm) hbuf]
  obtain ⟨-, rfl⟩ := pieceMsgs_eq_some hm
  exact blockOf_pieceMsg _ _ _

theorem payloadLen_pieceMsgs (hm : m ∈ pieceMsgs size index whole) : m.payloadLen < 2 ^ 64 := by
  obtain ⟨k, -, rfl⟩ := List.mem_map.mp hm
  have hblock : ((whole.drop (k * BLOCK_SIZE)).take BLOCK_SIZE).length ≤ BLOCK_SIZE :=
    List.length_take_le _ _
  simp only [pieceMsg, Message.payloadLen, List.length_append, luToBigEndian_length,
    PIECE_INDEX_BYTES, BLOCK_OFFSET_BYTES]
  unfold BLOCK_SIZE at *
  omega

end PieceProgress

namespace Link

open PieceProgress

variable {fresh junk : Nat → UInt8} {l : Link} {c : Conn} {size index count : Nat}
  {whole : List UInt8} {more : List (Option Message)}

theorem exists_downloadPiece (hindex : index < 2 ^ 31) (hdiv : Divides size)
    (hwhole : whole.length = size)
    (hreads : ReadsOff l.conn ((pieceMsgs size index whole).map some ++ more) c)
    (hsends : l.SendsRequests (numBlocks size + count)) :
    ∃ p' l', l.downloadPiece fresh (initPieceProgress index size junk) = some (true, p', l') ∧
      p'.index = index ∧ p'.buf = whole ∧ ReadsOff l'.conn more c ∧
      l'.SendsRequests count := by
  have hpipe : l.Unbroken (numBlocks size - 0) := (hsends.of_le (Nat.le_add_right _ _)).unbroken
  obtain ⟨later, hgo⟩ := hsends
  rw [List.replicate_add, List.append_assoc] at hgo
  have hcount : (pieceMsgs size index whole).length = numBlocks size := pieceMsgs_length _ _ _
  have hmemory : ((List.range size).map junk).length = size := by
    rw [List.length_map, List.length_range]
  have hrun := downloadInto_of_answers hcount (answersFrom_pieceMsgs hindex hdiv whole)
    (fun m hm => payloadLen_pieceMsgs hm) (fillBlocks_pieceMsgs hindex hdiv hwhole hmemory)
    (List.replicate count true ++ later) more []
  rw [hcount, hgo] at hrun
  obtain ⟨l', hbytes⟩ := exists_requestBlocks (p := ⟨index, (List.range size).map junk, 0⟩)
    hpipe hreads (by simp) hrun
  obtain ⟨replies, _, _, hplayed, hchunks, hsame⟩ := exists_played hbytes
  have hle := hplayed.count
  obtain ⟨rest, hsplit, hrest⟩ := hplayed.reads.split hreads (by
    rw [List.length_append, List.length_map, hcount]
    omega)
  have hboth := hsame rest []
  rw [← hsplit] at hboth
  have hequal := hboth.symm.trans hrun
  simp only [Option.some.injEq, Prod.mk.injEq, Session.mk.injEq] at hequal
  obtain ⟨-, -, hsent, hmore, -⟩ := hequal
  refine ⟨⟨index, whole, numBlocks size⟩, l', ?_, rfl, rfl, hmore ▸ hrest, ⟨later, hsent.symm⟩⟩
  rw [downloadPiece, initPieceProgress_size]
  exact hbytes

end Link

end BitTorrentBits
