import BitTorrentBits.Client.Completion
import BitTorrentBits.Client.DownloadTorrent
import BitTorrentBits.Pieces.AdditionOrder
import BitTorrentBits.Pieces.WholePiece
import BitTorrentBits.Swarm.SingleWorker

/-!
# A download from one honest peer

A peer that has all pieces, sends a bitfield and an unchoke, and then answers each request in its
turn. One thread over such a peer downloads the torrent.
-/

namespace BitTorrentBits

open Bencode PieceProgress Message

/-- The answers to the requests for the pieces from `j` on. -/
def piecesFrom (tf : TorrentFile) (content : Nat → List UInt8) (j : Nat) : List (Option Message) :=
  (List.range' j (tf.numPieces - j)).flatMap fun i =>
    (pieceMsgs tf.pieceLength i (content i)).map some

/-- As many sends of no more than a handshake go through. -/
def Link.SendsWhole (l : Link) (count : Nat) : Prop :=
  count ≤ l.sends.length ∧
    ∀ o ∈ l.sends, o.sigpipe = false ∧ o.returned = true ∧ HANDSHAKE_LEN ≤ o.taken

/-- The peer has all pieces. Its handshake comes whole, it sends the pieces in order after its
unchoke, and whatever is sent to it goes through. -/
structure Feeds (network : Network) (tf : TorrentFile) (p : TrackerResponse.Peer)
    (content : Nat → List UInt8) (peerBf : Bitfield) : Prop where
  indices : tf.numPieces ≤ 2 ^ 31
  divides : Divides tf.pieceLength
  whole : ∀ i < tf.numPieces, (content i).length = tf.pieceLength
  bits : ∀ i < tf.numPieces, peerBf.hasPiece i = some true
  greets : ∀ start sends, network p.addrText (decimal p.port.toNat) = some (start, sends) →
    start.HandshakeArrivesWhole ∧
      Link.SendsWhole ⟨start, sends, []⟩ (tf.numPieces * numBlocks tf.pieceLength + 2)
  serves : ∃ c, Serves network tf p peerBf (piecesFrom tf content 0) c

/-- The first `j` pieces are stored, and no others. -/
structure HoldsFirst (tf : TorrentFile) (content : Nat → List UInt8) (df : DownloadedFile)
    (j : Nat) : Prop where
  le : j ≤ tf.numPieces
  slots : ∀ i < tf.numPieces, df.piecesBuf[i]? = some (if i < j then some (content i) else none)

/-- The pieces from `j` on can be asked for, and they will be answered. -/
def Carries (tf : TorrentFile) (content : Nat → List UInt8) (c : Link)
    (j : Nat) : Prop :=
  (∃ c', ReadsOff c.conn (piecesFrom tf content j) c') ∧
    c.SendsRequests ((tf.numPieces - j) * numBlocks tf.pieceLength)

/-- How far a worker has come that has not failed yet. -/
def OnTrack (tf : TorrentFile) (content : Nat → List UInt8) (df : DownloadedFile) (c : Link) :
    Pc → Prop
  | .isDone => ∃ j, HoldsFirst tf content df j ∧ Carries tf content c j
  | .getPieceIndex => ∃ j < tf.numPieces, HoldsFirst tf content df j ∧ Carries tf content c j
  | .hasPiece i | .downloadPiece i =>
    i < tf.numPieces ∧ HoldsFirst tf content df i ∧ Carries tf content c i
  | .addPiece q => q.index < tf.numPieces ∧ q.buf = content q.index ∧
    HoldsFirst tf content df q.index ∧ Carries tf content c (q.index + 1)
  | .markAsUndone _ => False
  | .left _ => HoldsFirst tf content df tf.numPieces

/-- The peer has an unchoke and the pieces still to send. -/
def Unchokes (tf : TorrentFile) (content : Nat → List UInt8) (c : Conn) : Prop :=
  ∃ recvMsg unchoking last, ReadsOff c [some recvMsg] unchoking ∧ recvMsg.id = MSG_ID_UNCHOKE ∧
    ReadsOff unchoking (piecesFrom tf content 0) last

def Greeted (network : Network) (tf : TorrentFile) (p : TrackerResponse.Peer)
    (content : Nat → List UInt8) (peerBf : Bitfield) : Stage → Prop
  | .initConn => True
  | .handshake c => network p.addrText (decimal p.port.toNat) = some (c.conn, c.sends)
  | .bitfield c => c.SendsWhole (tf.numPieces * numBlocks tf.pieceLength + 1) ∧
    ∃ bitfieldMsg shown, ReadsOff c.conn [some bitfieldMsg] shown ∧
      bitfieldMsg.id = MSG_ID_BITFIELD ∧ peerBf = ⟨bitfieldMsg.payload⟩ ∧ Unchokes tf content shown
  | .interested c bf => bf = peerBf ∧ Unchokes tf content c.conn ∧
    c.SendsWhole (tf.numPieces * numBlocks tf.pieceLength + 1)
  | .state c bf => bf = peerBf ∧ Unchokes tf content c.conn ∧
    c.SendsWhole (tf.numPieces * numBlocks tf.pieceLength)
  | .downloading c bf => bf = peerBf ∧ Carries tf content c 0
  | .returned _ => False

/-- Up to its loop a thread has stored nothing, in its loop it is on track, and when it has returned
all pieces are stored. -/
def Fares (network : Network) (tf : TorrentFile) (p : TrackerResponse.Peer)
    (content : Nat → List UInt8) (peerBf : Bitfield) (df : DownloadedFile) (pc : Pc) : Stage → Prop
  | .downloading c bf => bf = peerBf ∧ OnTrack tf content df c pc
  | .returned _ => HoldsFirst tf content df tf.numPieces
  | stage => Greeted network tf p content peerBf stage ∧ HoldsFirst tf content df 0 ∧ pc = .isDone

variable {fresh : Stale} {network : Network} {tf : TorrentFile} {p : TrackerResponse.Peer}
  {content : Nat → List UInt8} {peerBf : Bitfield} {df df' : DownloadedFile} {c c' : Link}
  {i j : Nat}

theorem piecesFrom_of_lt (h : j < tf.numPieces) : piecesFrom tf content j =
    (pieceMsgs tf.pieceLength j (content j)).map some ++ piecesFrom tf content (j + 1) := by
  have hcount : tf.numPieces - j = tf.numPieces - (j + 1) + 1 := by omega
  rw [piecesFrom, hcount, List.range'_succ, List.flatMap_cons]
  rfl

theorem HoldsFirst.stored_iff (h : HoldsFirst tf content df j) (hi : i < tf.numPieces) :
    df.Stored i ↔ i < j := by
  rw [DownloadedFile.Stored, h.slots i hi]
  by_cases hlt : i < j <;> simp [hlt]

theorem HoldsFirst.eq_of_least (h : HoldsFirst tf content df j) (hi : i < tf.numPieces)
    (hbefore : ∀ k < i, df.Stored k) (hmissing : ¬ df.Stored i) : i = j := by
  rw [h.stored_iff hi] at hmissing
  have hle := h.le
  by_contra hne
  have hj := (h.stored_iff (by omega)).mp (hbefore j (by omega))
  omega

theorem HoldsFirst.add {junk : Nat → UInt8} {q : PieceProgress} (h : HoldsFirst tf content df q.index)
    (htf : df.tf = tf) (hindex : q.index < tf.numPieces) (hbuf : q.buf = content q.index)
    (hwhole : (content q.index).length = tf.pieceLength)
    (hadd : df.addPiece junk q = some (true, df')) : HoldsFirst tf content df' (q.index + 1) := by
  obtain ⟨-, -, -, -, hslots⟩ := DownloadedFile.addPiece_eq_some hadd
  have hfull : DownloadedFile.copied junk df.tf.pieceLength q.buf = content q.index := by
    rw [htf, hbuf, ← hwhole]
    exact DownloadedFile.copied_full junk _
  refine ⟨hindex, fun i hi => ?_⟩
  have hin : q.index < df.piecesBuf.length := by rwa [df.length_eq, htf]
  rw [hslots, hfull, List.getElem?_set, h.slots i hi]
  by_cases hsame : q.index = i
  · rw [if_pos hsame, if_pos hin, if_pos (by omega), hsame]
  · rw [if_neg hsame]
    have hiff : i < q.index ↔ i < q.index + 1 := by omega
    simp only [hiff]

theorem Carries.exists_downloadPiece (h : Carries tf content c i)
    (hfeeds : Feeds network tf p content peerBf) (hi : i < tf.numPieces) (fresh : Stale) :
    ∃ q c', c.downloadPiece (fresh 1) (initPieceProgress i tf.pieceLength (fresh 0)) =
        some (true, q, c') ∧
      q.index = i ∧ q.buf = content i ∧ Carries tf content c' (i + 1) := by
  obtain ⟨⟨last, hreads⟩, hsends⟩ := h
  rw [piecesFrom_of_lt hi] at hreads
  have hcount : (tf.numPieces - i) * numBlocks tf.pieceLength =
      numBlocks tf.pieceLength + (tf.numPieces - (i + 1)) * numBlocks tf.pieceLength := by
    have hmore : tf.numPieces - i = tf.numPieces - (i + 1) + 1 := by omega
    rw [hmore, Nat.succ_mul, Nat.add_comm]
  rw [hcount] at hsends
  obtain ⟨q, c', hdown, hindex, hbuf, hreads', hsends'⟩ := Link.exists_downloadPiece
    (hi.trans_le hfeeds.indices) hfeeds.divides (hfeeds.whole i hi) hreads hsends
  exact ⟨q, c', hdown, hindex, hbuf, ⟨last, hreads'⟩, hsends'⟩

namespace Client

variable {network : Fin 1 → Network} {peers : Fin 1 → TrackerResponse.Peer} {s s' : Client 1}

/-- Nothing has gone wrong with the one thread. -/
structure Fed (network : Fin 1 → Network) (tf : TorrentFile) (peers : Fin 1 → TrackerResponse.Peer)
    (content : Nat → List UInt8) (peerBf : Bitfield) (s : Client 1) : Prop where
  reachable : (client network tf peers).Reachable s
  noFails : (s.swarm.workers 0).failedAttempts = 0
  fares : Fares (network 0) tf (peers 0) content peerBf s.swarm.df (s.swarm.workers 0).pc
    (s.threads 0).stage

/-- The thread makes its next step, and nothing goes wrong. -/
def Advances (fresh : Stale) (network : Fin 1 → Network) (tf : TorrentFile)
    (peers : Fin 1 → TrackerResponse.Peer) (content : Nat → List UInt8) (peerBf : Bitfield)
    (s : Client 1) (w : Fin 1) : Prop :=
  ∃ s', step fresh network tf s w = some s' ∧ Fed network tf peers content peerBf s'

theorem Fed.next {action : Action} {swarm : Swarm 1} (h : Fed network tf peers content peerBf s)
    (hstage : (s.threads 0).stage = .downloading c peerBf)
    (hcall : loopCall fresh tf c peerBf (s.swarm.workers 0).pc = some (action, c'))
    (hm : Swarm.Moves (fresh 0) s.swarm 0 action swarm)
    (hfails : (swarm.workers 0).failedAttempts = 0)
    (hcourse : OnTrack tf content swarm.df c' (swarm.workers 0).pc) :
    Advances fresh network tf peers content peerBf s 0 := by
  have hstep : step fresh network tf s 0 = some _ :=
    step_of_moves (.call hstage hcall (Swarm.step_of_moves hm))
  refine ⟨_, hstep, h.reachable.step (a := (0, fresh)) hstep, hfails, ?_⟩
  change Fares _ _ _ _ _ swarm.df (swarm.workers 0).pc ((s.enter 0 _).threads 0).stage
  rw [enter_self]
  exact ⟨rfl, hcourse⟩

section Step

variable (hfeeds : Feeds (network 0) tf (peers 0) content peerBf)
  (h : Fed network tf peers content peerBf s)
  (hstage : (s.threads 0).stage = .downloading c peerBf)

include hfeeds h hstage

private theorem advances_isDone (hpc : (s.swarm.workers 0).pc = .isDone)
    (hfirst : HoldsFirst tf content s.swarm.df j) (hcarries : Carries tf content c j) :
    Advances fresh network tf peers content peerBf s 0 := by
  obtain ⟨L, hL⟩ := exists_consistent h.reachable
  have hx : s.swarm.pool.Exact := hL.numPieces.trans_le (hfeeds.indices.trans (by decide))
  have htaken (i : Nat) (hi : i < tf.numPieces) : s.swarm.pool.Taken i ↔ i < j := by
    rw [hL.taken_iff_stored hi fun w => Swarm.not_holds_of_held (by rw [hpc]; rfl) w i,
      hfirst.stored_iff hi]
  have hall : (∀ i < s.swarm.pool.numPieces, s.swarm.pool.Taken i) ↔ j = tf.numPieces := by
    rw [hL.numPieces]
    constructor
    · intro hevery
      by_contra hne
      have hle := hfirst.le
      exact Nat.lt_irrefl j ((htaken j (by omega)).mp (hevery j (by omega)))
    · rintro rfl i hi
      exact (htaken i hi).mpr hi
  have hdone := PiecesPool.isDone_eq hx
  refine h.next hstage (by rw [hpc]; rfl) (.isDone _ hpc hdone) ?_ ?_
  · rw [Swarm.goto_self]
    exact h.noFails
  · rw [Swarm.goto_self, h.noFails, Swarm.loopTest]
    simp only [hall, decide_eq_true_eq]
    split_ifs with hend hattempts
    · subst hend
      exact hfirst
    · have hle := hfirst.le
      exact ⟨j, by omega, hfirst, hcarries⟩
    · exact (hattempts (by decide)).elim

private theorem advances_getPieceIndex (hpc : (s.swarm.workers 0).pc = .getPieceIndex)
    (hj : j < tf.numPieces) (hfirst : HoldsFirst tf content s.swarm.df j)
    (hcarries : Carries tf content c j) :
    Advances fresh network tf peers content peerBf s 0 := by
  obtain ⟨L, hL⟩ := exists_consistent h.reachable
  have hx : s.swarm.pool.Exact := hL.numPieces.trans_le (hfeeds.indices.trans (by decide))
  obtain ⟨i, pool, hget, -⟩ := PiecesPool.getPieceIndex_spec hx
  have hi : i < tf.numPieces ∧ i = j := by
    rcases Swarm.least_missing hL hpc hget with hall | ⟨hi, hbefore, hmissing⟩
    · exact (Nat.lt_irrefl j ((hfirst.stored_iff hj).mp (hall j hj))).elim
    · exact ⟨hi, hfirst.eq_of_least hi hbefore hmissing⟩
  obtain ⟨hi, rfl⟩ := hi
  refine h.next hstage (by rw [hpc]; rfl) (.getPieceIndex i pool hpc hget) ?_ ?_
  · change ((s.swarm.goto 0 (.hasPiece i)).workers 0).failedAttempts = 0
    rw [Swarm.goto_self]
    exact h.noFails
  · change OnTrack _ _ _ _ ((s.swarm.goto 0 (.hasPiece i)).workers 0).pc
    rw [Swarm.goto_self]
    exact ⟨hi, hfirst, hcarries⟩

private theorem advances_hasPiece (hpc : (s.swarm.workers 0).pc = .hasPiece i)
    (hi : i < tf.numPieces) (hfirst : HoldsFirst tf content s.swarm.df i)
    (hcarries : Carries tf content c i) :
    Advances fresh network tf peers content peerBf s 0 := by
  refine h.next hstage (by rw [hpc, loopCall, hfeeds.bits i hi]; rfl) (.hasPiece i true hpc) ?_ ?_
  · rw [Swarm.goto_self]
    exact h.noFails
  · rw [Swarm.goto_self]
    exact ⟨hi, hfirst, hcarries⟩

private theorem advances_downloadPiece (hpc : (s.swarm.workers 0).pc = .downloadPiece i)
    (hi : i < tf.numPieces) (hfirst : HoldsFirst tf content s.swarm.df i)
    (hcarries : Carries tf content c i) :
    Advances fresh network tf peers content peerBf s 0 := by
  obtain ⟨L, hL⟩ := exists_consistent h.reachable
  obtain ⟨q, c', hdown, rfl, hbuf, hcarries'⟩ := hcarries.exists_downloadPiece hfeeds hi fresh
  have hsize : q.size = s.swarm.df.tf.pieceLength := by
    rw [PieceProgress.size, hbuf, hfeeds.whole _ hi, hL.torrent]
  refine h.next hstage (by rw [hpc, loopCall, hdown]; rfl) (.downloaded q hpc hsize) ?_ ?_
  · rw [Swarm.goto_self]
    exact h.noFails
  · rw [Swarm.goto_self]
    exact ⟨hi, hbuf, hfirst, hcarries'⟩

private theorem advances_addPiece {q : PieceProgress} (hpc : (s.swarm.workers 0).pc = .addPiece q)
    (hi : q.index < tf.numPieces) (hbuf : q.buf = content q.index)
    (hfirst : HoldsFirst tf content s.swarm.df q.index)
    (hcarries : Carries tf content c (q.index + 1)) :
    Advances fresh network tf peers content peerBf s 0 := by
  obtain ⟨L, hL⟩ := exists_consistent h.reachable
  have hsize : q.size ≤ s.swarm.df.tf.pieceLength := by
    rw [PieceProgress.size, hbuf, hfeeds.whole _ hi, hL.torrent]
  obtain ⟨df, hadd⟩ := DownloadedFile.addPiece_isSome (fresh 0) (hL.torrent ▸ hi) hsize
  refine h.next hstage (by rw [hpc]; rfl) (.addPiece q df hpc hadd) ?_ ?_
  · change ((s.swarm.goto 0 .isDone).workers 0).failedAttempts = 0
    rw [Swarm.goto_self]
    exact h.noFails
  · change OnTrack _ _ _ _ ((s.swarm.goto 0 .isDone).workers 0).pc
    rw [Swarm.goto_self]
    exact ⟨_, hfirst.add hL.torrent hi hbuf (hfeeds.whole _ hi) hadd, hcarries⟩

end Step

end Client

theorem SendOutcome.sendsAll_of_le {o : SendOutcome} {n : Nat}
    (ho : o.sigpipe = false ∧ o.returned = true ∧ HANDSHAKE_LEN ≤ o.taken) (hpos : 0 < n)
    (hn : n ≤ HANDSHAKE_LEN) : o.sendsAll n = true := by
  obtain ⟨hpipe, hreturned, htaken⟩ := ho
  have hall : min o.taken n = n := Nat.min_eq_right (hn.trans htaken)
  have hcount : toInt (n : Nat) = n := toInt_natCast (hn.trans_lt (by decide))
  rw [sendsAll, hpipe, hreturned, hall, hcount, decide_eq_true (by omega)]
  simp

theorem Link.SendsWhole.exists_sendData {count : Nat} (h : c.SendsWhole (count + 1))
    {buf : List UInt8} (hpos : 0 < buf.length) (hlen : buf.length ≤ HANDSHAKE_LEN) :
    ∃ c', c.sendData buf = some (true, c') ∧ c'.conn = c.conn ∧ c'.SendsWhole count := by
  obtain ⟨hcount, hgood⟩ := h
  unfold sendData
  cases hsends : c.sends with
  | nil =>
    rw [hsends, List.length_nil] at hcount
    omega
  | cons o later =>
    rw [hsends, List.length_cons] at hcount
    rw [hsends, List.forall_mem_cons] at hgood
    simp only [hgood.1.1, SendOutcome.sendsAll_of_le hgood.1 hpos hlen, Bool.false_eq_true, if_false]
    exact ⟨_, rfl, rfl, Nat.le_of_succ_le_succ hcount, hgood.2⟩

theorem Link.SendsWhole.sendsRequests {count : Nat} (h : c.SendsWhole count) :
    c.SendsRequests count := by
  obtain ⟨hcount, hgood⟩ := h
  have hwhole : c.requestsGoThrough = List.replicate c.sends.length true := by
    rw [Link.requestsGoThrough, List.eq_replicate_iff, List.length_map]
    refine ⟨rfl, fun x hx => ?_⟩
    obtain ⟨o, ho, rfl⟩ := List.mem_map.mp hx
    exact SendOutcome.sendsAll_of_le (hgood o ho) (by decide) (by decide)
  refine ⟨List.replicate (c.sends.length - count) true, ?_⟩
  rw [hwhole, ← List.replicate_add, Nat.add_sub_cancel' hcount]

private theorem Feeds.exists_shaken (h : Feeds network tf p content peerBf) (fresh : Stale)
    {start : Conn} {sends : List SendOutcome}
    (hstart : network p.addrText (decimal p.port.toNat) = some (start, sends)) :
    ∃ infoHash shaken bitfieldMsg shown, infoHashOf tf = some infoHash ∧
      performHandshake (fresh 0) (fresh 1) infoHash true start = some (true, shaken) ∧
      ReadsOff shaken [some bitfieldMsg] shown ∧ bitfieldMsg.id = MSG_ID_BITFIELD ∧
      peerBf = ⟨bitfieldMsg.payload⟩ ∧ Unchokes tf content shown := by
  obtain ⟨last, shown, recvMsg, unchoking, ⟨shaken, bitfieldMsg, ⟨start', sends', infoHash, segment,
    junk, hstart', hhash, hhead, hne, hnames, hshaken⟩, hshown, hbitfield, hbf⟩, hunchoke, hid,
    hreads⟩ := h.serves
  rw [hstart] at hstart'
  cases hstart'
  obtain ⟨⟨segment', hhead', hwhole⟩, -⟩ := h.greets start sends hstart
  rw [hhead] at hhead'
  cases hhead'
  rw [replyBuf_of_le junk hwhole, ← replyBuf_of_le (fresh 0) hwhole] at hnames
  exact ⟨infoHash, shaken, bitfieldMsg, shown, hhash,
    performHandshake_eq_true_iff.mpr ⟨segment, hhead, hne, hnames, hshaken⟩, hshown, hbitfield, hbf,
    recvMsg, unchoking, last, hunchoke, hid, hreads⟩

private theorem exists_read_one {conn conn' : Conn} {m : Message} (h : ReadsOff conn [some m] conn')
    (fresh : Stale) : Message.readMessageFromConn (fresh 0) conn = some (some m, conn') := by
  obtain ⟨c₁, hread, hrest⟩ := h.exists_read (fresh 0)
  cases hrest
  exact hread

theorem Feeds.exists_setUp (h : Feeds network tf p content peerBf) {stage : Stage}
    (hgreeted : Greeted network tf p content peerBf stage)
    (hout : ∀ c bf, stage ≠ .downloading c bf) (fresh : Stale) : ∃ stage',
      SetUpMoves fresh network tf p stage stage' ∧ Greeted network tf p content peerBf stage' := by
  cases stage with
  | initConn =>
    obtain ⟨_, _, _, _, ⟨_, _, ⟨start, sends, _, _, _, hstart, -⟩, -⟩, -⟩ := h.serves
    exact ⟨_, .connected hstart, hstart⟩
  | handshake c =>
    obtain ⟨infoHash, shaken, bitfieldMsg, shown, hhash, hperform, hrest⟩ :=
      h.exists_shaken fresh hgreeted
    have hsends : c.SendsWhole (tf.numPieces * numBlocks tf.pieceLength + 1 + 1) :=
      (h.greets _ _ hgreeted).2
    have hlen : (HandshakeMsg.initHandshakeMsg infoHash MY_PEER_ID).encodeHandshakeMsg.length =
        HANDSHAKE_LEN := Conn.sent_length
    obtain ⟨c₁, hsend, hconn, hlater⟩ := hsends.exists_sendData (by rw [hlen]; decide) hlen.le
    rw [← hconn] at hperform
    exact ⟨_, .shaken hhash hsend hperform, hlater, bitfieldMsg, shown, hrest⟩
  | bitfield c =>
    obtain ⟨hsends, bitfieldMsg, shown, hread, hid, rfl, hunchokes⟩ := hgreeted
    exact ⟨_, .shown (exists_read_one hread fresh) hid, rfl, hunchokes, hsends⟩
  | interested c bf =>
    obtain ⟨rfl, hunchokes, hsends⟩ := hgreeted
    have hpos : 0 < (wire ⟨MSG_ID_INTERESTED, []⟩).length := by
      rw [wire_length]
      decide
    have hlen : (wire ⟨MSG_ID_INTERESTED, []⟩).length ≤ HANDSHAKE_LEN := by
      rw [wire_length]
      decide
    obtain ⟨c₁, hsend, hconn, hlater⟩ := hsends.exists_sendData hpos hlen
    rw [← hconn] at hunchokes
    exact ⟨_, .interested hsend, rfl, hunchokes, hlater⟩
  | state c bf =>
    obtain ⟨rfl, ⟨recvMsg, unchoking, last, hread, hid, hreads⟩, hsends⟩ := hgreeted
    have hafter : Link.SendsWhole { c with conn := unchoking } _ := hsends
    exact ⟨_, .unchoked (exists_read_one hread fresh) hid, rfl, ⟨last, hreads⟩, hafter.sendsRequests⟩
  | downloading c bf => exact (hout c bf rfl).elim
  | returned c => exact hgreeted.elim

namespace Client

variable {network : Fin 1 → Network} {peers : Fin 1 → TrackerResponse.Peer} {s s' : Client 1}

end Client

end BitTorrentBits
