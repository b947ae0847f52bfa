import BitTorrentBits.Client.Conversation
import BitTorrentBits.Pieces.Coverage

/-!
# Where the stored pieces come from

The bytes of a piece are not compared with its hash when it is stored. What is stored is what
the answers of one peer have left in a buffer, so it is right where the peers are genuine.
-/

namespace BitTorrentBits

open PieceProgress Message

variable {W : Nat} {tf : TorrentFile} {s s' : Client W} {w : Fin W} {i : Nat}
  {buf whole : List UInt8}

/-- Whatever the peer sends after its unchoke, a block that it sends for piece `i` is one of
`whole`, at its place. -/
def Genuine (network : Network) (tf : TorrentFile) (p : TrackerResponse.Peer)
    (i : Nat) (whole : List UInt8) : Prop :=
  ∀ peerBf replies c, Serves network tf p peerBf replies c →
    ∀ m, some m ∈ replies → ∀ k < numBlocks tf.pieceLength, Answers i k m →
      blockOf m = (whole.drop (k * BLOCK_SIZE)).take BLOCK_SIZE

theorem SentBy.length {network : Network} {p : TrackerResponse.Peer}
    (h : SentBy network tf p i buf) : buf.length = tf.pieceLength := by
  obtain ⟨_, _, _, _, memory, _, _, _, _, hlen, hfilled⟩ := h
  rw [fillBlocks_length hfilled, hlen]

theorem SentBy.eq_of_genuine {network : Network} {p : TrackerResponse.Peer}
    (h : SentBy network tf p i buf) (hmax : tf.pieceLength < 2 ^ 64)
    (hwhole : whole.length = tf.pieceLength) (hgenuine : Genuine network tf p i whole) :
    buf = whole := by
  obtain ⟨peerBf, before, ms, c, memory, hserves, _, hcount, hans, hlen, hfilled⟩ := h
  rw [← hwhole] at hmax hcount hlen
  refine eq_of_fillBlocks hmax hcount hans (fun j m hm => ?_) hlen hfilled
  have hmem : some m ∈ before ++ ms.map some :=
    List.mem_append_right _ (List.mem_map_of_mem (List.mem_of_getElem? hm))
  have hj : j < numBlocks tf.pieceLength := by
    rw [← hwhole, ← hcount]
    exact (List.getElem?_eq_some_iff.mp hm).1
  have hanswer := hans.get hm
  rw [Nat.zero_add] at hanswer
  exact hgenuine peerBf _ c hserves m hmem j hj hanswer

namespace Client

variable {network : Fin W → Network} {peers : Fin W → TrackerResponse.Peer}

/-- Every stored piece comes from the answers of one of the peers. -/
def Sourced (network : Fin W → Network) (tf : TorrentFile)
    (peers : Fin W → TrackerResponse.Peer) (s : Client W) : Prop :=
  ∀ i buf, s.swarm.df.piecesBuf[i]? = some (some buf) →
    ∃ w, SentBy (network w) tf (peers w) i buf

theorem sourced_of_call {junk : Nat → UInt8} {swarm : Swarm W} {action : Action} {c : Link}
    {peerBf : Bitfield}
    (h : Sourced network tf peers s) (htf : s.swarm.df.tf = tf)
    (hsettled : Settled network tf peers s w)
    (hstage : (s.threads w).stage = .downloading c peerBf)
    (hm : Swarm.Moves junk s.swarm w action swarm) {i : Nat} {buf : List UInt8}
    (hbuf : swarm.df.piecesBuf[i]? = some (some buf)) :
    ∃ w, SentBy (network w) tf (peers w) i buf := by
  cases hm with
  | addPiece p df hpc hadd =>
    obtain ⟨-, hstands⟩ := hsettled
    rw [hstage, hpc] at hstands
    have hsent : SentBy (network w) tf (peers w) p.index p.buf := hstands.2
    obtain ⟨-, -, -, -, hslots⟩ := DownloadedFile.addPiece_eq_some hadd
    have hfull : DownloadedFile.copied junk s.swarm.df.tf.pieceLength p.buf = p.buf := by
      rw [htf, ← hsent.length]
      exact DownloadedFile.copied_full junk p.buf
    change df.piecesBuf[i]? = _ at hbuf
    rw [hslots, hfull, List.getElem?_set] at hbuf
    split_ifs at hbuf with hi hlt
    · rw [← hi, ← Option.some.inj (Option.some.inj hbuf)]
      exact ⟨w, hsent⟩
    · exact h i buf hbuf
  | _ => exact h i buf hbuf

theorem reachable_sourced (h : (client network tf peers).Reachable s) :
    Sourced network tf peers s := by
  have hall := h.invariant
    (P := fun s => (client network tf peers).Reachable s ∧ Sourced network tf peers s)
    ⟨⟨[], rfl⟩, fun i buf hbuf => ((DownloadedFile.not_stored_init tf i) ⟨buf, hbuf⟩).elim⟩
    fun s label s' ⟨hreach, hs⟩ hstep => by
      refine ⟨hreach.step hstep, ?_⟩
      cases moves_of_step hstep with
      | setUp _ | succeed _ _ => exact hs
      | call hstage _ hcalled =>
        obtain ⟨L, hL⟩ := exists_consistent hreach
        exact fun i buf hbuf => sourced_of_call hs hL.torrent (reachable_settled hreach label.1) hstage
          (Swarm.moves_of_step hcalled) hbuf
  exact hall.2

/-- In every interleaving, whatever the peers send: the bytes that are stored for a piece are those
that consecutive answers to its requests, read on one connection after the handshake, a bitfield
that has the piece and an unchoke, have left in a buffer. They are the right ones if that peer is
genuine; it may still refuse, stop, send other messages or send blocks that were not asked for. -/
theorem stored_was_sent (h : (client network tf peers).Reachable s)
    (hmax : tf.pieceLength < 2 ^ 64) (hbuf : s.swarm.df.piecesBuf[i]? = some (some buf)) :
    ∃ w, SentBy (network w) tf (peers w) i buf ∧
      ∀ whole : List UInt8, whole.length = tf.pieceLength →
        Genuine (network w) tf (peers w) i whole → buf = whole := by
  obtain ⟨w, hsent⟩ := reachable_sourced h i buf hbuf
  exact ⟨w, hsent, fun whole hwhole hgenuine => hsent.eq_of_genuine hmax hwhole hgenuine⟩

private theorem nothing_from_closed {replies : List (Option Message)} {c : Conn} {m : Message}
    (h : ReadsOff ⟨[]⟩ replies c) : some m ∉ replies := by
  induction replies generalizing c with
  | nil => exact List.not_mem_nil
  | cons reply replies ih =>
    cases h with
    | cons hread hrest =>
      cases hread
      rw [List.mem_cons, not_or]
      exact ⟨nofun, ih hrest⟩

theorem shown_oneByte {tf : TorrentFile} {p : TrackerResponse.Peer} {peerBf : Bitfield} {shown : Conn}
    (h : Shows oneByteNetwork tf p peerBf shown) : peerBf = ⟨[128]⟩ ∧
      shown = ⟨[[0, 0, 0, 1, 1], [0, 0, 0, 10, 7, 0, 0, 0, 0, 0, 0, 0, 0, 9]]⟩ := by
  obtain ⟨shaken, bitfieldMsg,
    ⟨start, sends, infoHash, segment, junk, hstart, -, -, -, -, rfl⟩, hshown, -,
    rfl⟩ := h
  cases hstart
  cases hshown with
  | cons hread hrest =>
    cases hread
    cases hrest
    exact ⟨rfl, rfl⟩

theorem served_oneByte {tf : TorrentFile} {p : TrackerResponse.Peer} {peerBf : Bitfield}
    {replies : List (Option Message)} {c : Conn} {m : Message}
    (h : Serves oneByteNetwork tf p peerBf replies c) (hm : some m ∈ replies) :
    m = ⟨MSG_ID_PIECE, [0, 0, 0, 0, 0, 0, 0, 0, 9]⟩ := by
  obtain ⟨shown, recvMsg, unchoking, hshows, hunchoke, -, hreplies⟩ := h
  obtain ⟨-, rfl⟩ := shown_oneByte hshows
  cases hunchoke with
  | cons hread hrest =>
    cases hread
    cases hrest
    cases hreplies with
    | nil => cases hm
    | cons hread hrest =>
      cases hread
      rcases List.mem_cons.mp hm with hfirst | hlater
      · exact Option.some.inj hfirst
      · exact (nothing_from_closed hrest hlater).elim

theorem genuine_oneByte (p : TrackerResponse.Peer) :
    Genuine oneByteNetwork oneByteTorrent p 0 [9] := by
  intro peerBf replies c hserves m hm k hk _
  obtain rfl : k = 0 := Nat.lt_one_iff.mp hk
  rw [served_oneByte hserves hm]
  rfl

theorem stored_was_sent_one : ∃ s buf, oneByteSteps 12 = some s ∧
    s.swarm.df.piecesBuf[0]? = some (some buf) ∧ buf = [9] := by
  obtain ⟨s, hs, hend⟩ : ∃ s, oneByteSteps 12 = some s ∧ decide (s.swarm.df.Stored 0) = true :=
    (Option.any_eq_true _ _).mp (by decide +kernel)
  obtain ⟨buf, hbuf⟩ := of_decide_eq_true hend
  obtain ⟨_, _, hright⟩ := stored_was_sent ⟨_, hs⟩ (by decide) hbuf
  exact ⟨s, buf, hs, hbuf, hright [9] rfl (genuine_oneByte _)⟩

end Client

end BitTorrentBits
