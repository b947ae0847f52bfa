import BitTorrentBits.Client.Completion
import BitTorrentBits.Client.Crashes

/-!
# Threads that stay inside their memory

With peers that do not close a connection under a send, and send no first byte of 68 or more, no
bitfield that has no bit for the value past the end or has it set, and no block that does not fit
the piece it names, all threads return.
-/

namespace BitTorrentBits

open Bencode PieceProgress Message

/-- Whatever request the message is taken to answer, it fits. -/
def FitsPieces (tf : TorrentFile) (m : Message) : Prop :=
  ∀ i < tf.numPieces, ∀ k < numBlocks tf.pieceLength, BlockFits i tf.pieceLength k m

/-- What the peer does keeps its thread inside the memory, and SIGPIPE away. -/
structure Polite (network : Network) (tf : TorrentFile) (p : TrackerResponse.Peer) : Prop where
  listens : ∀ start sends, network p.addrText (decimal p.port.toNat) = some (start, sends) →
    ∀ o ∈ sends, o.sigpipe = false
  greets : ∀ start sends, network p.addrText (decimal p.port.toNat) = some (start, sends) →
    ∀ b, start.pending.head?.bind List.head? = some b → b.toNat < HANDSHAKE_LEN
  shows : ∀ peerBf shown, Shows network tf p peerBf shown →
    peerBf.hasPiece (tf.numPieces + 1) = some false
  serves : ∀ peerBf replies c, Serves network tf p peerBf replies c →
    ∀ m, some m ∈ replies → FitsPieces tf m

/-- The peer of the thread keeps its connection open. -/
def Stage.Listens (stage : Stage) : Prop := ∀ c, stage.link = some c → c.Listens

variable {fresh : Stale} {network : Network} {tf : TorrentFile} {p : TrackerResponse.Peer}
  {peerBf : Bitfield} {c c' : Link} {stage stage' : Stage} {pc : Pc} {i : Nat}

theorem Link.Listens.loopCall {action : Action} (hl : c.Listens)
    (h : loopCall fresh tf c peerBf pc = some (action, c')) : c'.Listens := by
  cases pc with
  | downloadPiece i =>
    obtain ⟨⟨ok, q, c₁⟩, hdown, h⟩ := Option.bind_eq_some_iff.mp h
    cases h
    exact hl.requestBlocks hdown
  | hasPiece i =>
    obtain ⟨answer, _, h⟩ := Option.bind_eq_some_iff.mp h
    cases h
    exact hl
  | left d => contradiction
  | isDone | getPieceIndex | addPiece _ | markAsUndone _ =>
    cases h
    exact hl

theorem Polite.index_lt (hpolite : Polite network tf p) {shown : Conn}
    (hshows : Shows network tf p peerBf shown) (hbit : peerBf.hasPiece i = some true)
    (hi : i < tf.numPieces ∨ i = tf.numPieces + 1) : i < tf.numPieces := by
  rcases hi with hlt | rfl
  · exact hlt
  · rw [hpolite.shows peerBf shown hshows] at hbit
    cases hbit

theorem Serves.shows {replies : List (Option Message)} {conn : Conn}
    (h : Serves network tf p peerBf replies conn) :
    ∃ shown, Shows network tf p peerBf shown := by
  obtain ⟨shown, _, _, hshows, _⟩ := h
  exact ⟨shown, hshows⟩

namespace Client

variable {W : Nat} {network : Fin W → Network} {peers : Fin W → TrackerResponse.Peer}
  {s s' : Client W} {w : Fin W}

end Client

end BitTorrentBits
