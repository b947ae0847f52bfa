import BitTorrentBits.Client.Threads
import BitTorrentBits.Swarm.BitfieldReads

/-!
# A thread up to its loop

What each part of `download_torrent_thread_fun` before the loop sends and reads, and where it
leads the thread.
-/

namespace BitTorrentBits

open Bencode Message

/-- The info hash, where there are as many bytes. -/
def infoHashOf (tf : TorrentFile) : Option (List.Vector UInt8 BT_HASH_LENGTH) :=
  tf.infoHash.bind fun infoHash => readArray infoHash 0 BT_HASH_LENGTH

/-- A part of the function before the loop: it goes through, or the thread returns. -/
inductive SetUpMoves (fresh : Stale) (network : Network) (tf : TorrentFile)
    (p : TrackerResponse.Peer) : Stage → Stage → Prop
  | notConnected (hstart : network p.addrText (decimal p.port.toNat) = none) :
      SetUpMoves fresh network tf p .initConn (.returned none)
  | connected {start : Conn} {sends : List SendOutcome}
      (hstart : network p.addrText (decimal p.port.toNat) = some (start, sends)) :
      SetUpMoves fresh network tf p .initConn (.handshake ⟨start, sends, []⟩)
  | notShaken {c c₁ : Link} {infoHash : List.Vector UInt8 BT_HASH_LENGTH} {sent : Bool} {conn : Conn}
      (hhash : infoHashOf tf = some infoHash)
      (hsend : c.sendData (HandshakeMsg.initHandshakeMsg infoHash MY_PEER_ID).encodeHandshakeMsg =
        some (sent, c₁))
      (hperform : performHandshake (fresh 0) (fresh 1) infoHash sent c₁.conn = some (false, conn)) :
      SetUpMoves fresh network tf p (.handshake c) (.returned (some { c₁ with conn := conn }))
  | shaken {c c₁ : Link} {infoHash : List.Vector UInt8 BT_HASH_LENGTH} {conn : Conn}
      (hhash : infoHashOf tf = some infoHash)
      (hsend : c.sendData (HandshakeMsg.initHandshakeMsg infoHash MY_PEER_ID).encodeHandshakeMsg =
        some (true, c₁))
      (hperform : performHandshake (fresh 0) (fresh 1) infoHash true c₁.conn = some (true, conn)) :
      SetUpMoves fresh network tf p (.handshake c) (.bitfield { c₁ with conn := conn })
  | notShown {c : Link} {reply : Option Message} {conn : Conn}
      (hread : Message.readMessageFromConn (fresh 0) c.conn = some (reply, conn))
      (hnot : ∀ m, reply = some m → m.id ≠ MSG_ID_BITFIELD) :
      SetUpMoves fresh network tf p (.bitfield c) (.returned (some { c with conn := conn }))
  | shown {c : Link} {bitfieldMsg : Message} {conn : Conn}
      (hread : Message.readMessageFromConn (fresh 0) c.conn = some (some bitfieldMsg, conn))
      (hid : bitfieldMsg.id = MSG_ID_BITFIELD) :
      SetUpMoves fresh network tf p (.bitfield c)
        (.interested { c with conn := conn } ⟨bitfieldMsg.payload⟩)
  | notInterested {c c₁ : Link} {peerBf : Bitfield}
      (hsend : c.sendData (wire ⟨MSG_ID_INTERESTED, []⟩) = some (false, c₁)) :
      SetUpMoves fresh network tf p (.interested c peerBf) (.returned (some c₁))
  | interested {c c₁ : Link} {peerBf : Bitfield}
      (hsend : c.sendData (wire ⟨MSG_ID_INTERESTED, []⟩) = some (true, c₁)) :
      SetUpMoves fresh network tf p (.interested c peerBf) (.state c₁ peerBf)
  | notUnchoked {c : Link} {peerBf : Bitfield} {reply : Option Message} {conn : Conn}
      (hread : Message.readMessageFromConn (fresh 0) c.conn = some (reply, conn))
      (hnot : ∀ m, reply = some m → m.id ≠ MSG_ID_UNCHOKE) :
      SetUpMoves fresh network tf p (.state c peerBf) (.returned (some { c with conn := conn }))
  | unchoked {c : Link} {peerBf : Bitfield} {recvMsg : Message} {conn : Conn}
      (hread : Message.readMessageFromConn (fresh 0) c.conn = some (some recvMsg, conn))
      (hid : recvMsg.id = MSG_ID_UNCHOKE) :
      SetUpMoves fresh network tf p (.state c peerBf) (.downloading { c with conn := conn } peerBf)

variable {fresh : Stale} {network : Network} {tf : TorrentFile} {p : TrackerResponse.Peer}
  {stage stage' : Stage}

theorem setUp_initConn (fresh : Stale) (network : Network) (tf : TorrentFile)
    (p : TrackerResponse.Peer) : setUp fresh network tf p .initConn =
      some (match network p.addrText (decimal p.port.toNat) with
        | none => .returned none
        | some r => .handshake ⟨r.1, r.2, []⟩) := by
  obtain ⟨addr, haddr, haddrText⟩ := p.exists_peerAddr (fresh 0)
  obtain ⟨port, hport, hportText⟩ := p.exists_portRepr (fresh 1)
  simp only [setUp, initConn, haddr, haddrText, hport, hportText, Option.bind_eq_bind,
    Option.bind_some, Option.pure_def]
  cases network p.addrText (decimal p.port.toNat) <;> rfl

private theorem initInterested : Message.initMessage MSG_ID_INTERESTED 0 [] =
    some ⟨MSG_ID_INTERESTED, []⟩ := rfl

private theorem initBitfield_msg (m : Message) :
    Bitfield.initBitfield m.payload m.payloadLen = some ⟨m.payload⟩ := Swarm.initBitfield_all _

theorem setUp_of_moves (h : SetUpMoves fresh network tf p stage stage') :
    setUp fresh network tf p stage = some stage' := by
  cases h with
  | notConnected hstart | connected hstart => rw [setUp_initConn, hstart]
  | notShaken hhash hsend hperform | shaken hhash hsend hperform =>
    obtain ⟨bytes, hbytes, hread⟩ := Option.bind_eq_some_iff.mp hhash
    simp [setUp, hbytes, hread, hsend, hperform]
  | @notShown c reply conn hread hnot =>
    rw [setUp, Link.readMessageFromConn_eq_some.mpr ⟨conn, hread, rfl⟩]
    cases reply with
    | none => rfl
    | some m => simp [hnot m rfl]
  | @shown c m conn hread hid =>
    rw [setUp, Link.readMessageFromConn_eq_some.mpr ⟨conn, hread, rfl⟩]
    simp [hid, initBitfield_msg]
  | notInterested hsend | interested hsend =>
    simp [setUp, initInterested, Link.sendMessageToConn_eq, hsend]
  | @notUnchoked c peerBf reply conn hread hnot =>
    rw [setUp, Link.readMessageFromConn_eq_some.mpr ⟨conn, hread, rfl⟩]
    cases reply with
    | none => rfl
    | some m => simp [hnot m rfl]
  | @unchoked c peerBf m conn hread hid =>
    rw [setUp, Link.readMessageFromConn_eq_some.mpr ⟨conn, hread, rfl⟩]
    simp [hid]

private theorem moves_handshake {c : Link} (h : setUp fresh network tf p (.handshake c) = some stage') :
    SetUpMoves fresh network tf p (.handshake c) stage' := by
  obtain ⟨bytes, hbytes, h⟩ := Option.bind_eq_some_iff.mp h
  obtain ⟨infoHash, hread, h⟩ := Option.bind_eq_some_iff.mp h
  have hhash : infoHashOf tf = some infoHash := by
    rw [infoHashOf, hbytes]
    exact hread
  obtain ⟨⟨sent, c₁⟩, hsend, h⟩ := Option.bind_eq_some_iff.mp h
  obtain ⟨⟨ok, conn⟩, hperform, h⟩ := Option.bind_eq_some_iff.mp h
  cases h
  cases ok with
  | false => exact .notShaken hhash hsend hperform
  | true =>
    cases sent with
    | false => cases hperform
    | true => exact .shaken hhash hsend hperform

private theorem moves_bitfield {c : Link} (h : setUp fresh network tf p (.bitfield c) = some stage') :
    SetUpMoves fresh network tf p (.bitfield c) stage' := by
  obtain ⟨⟨reply, c₁⟩, hreply, h⟩ := Option.bind_eq_some_iff.mp h
  obtain ⟨conn, hread, rfl⟩ := Link.readMessageFromConn_eq_some.mp hreply
  cases reply with
  | none =>
    cases h
    exact .notShown hread nofun
  | some m =>
    dsimp only at h
    rw [initBitfield_msg] at h
    split_ifs at h with hid
    · cases h
      exact .notShown hread fun _ hm => Option.some.inj hm ▸ hid
    · cases h
      exact .shown hread (not_not.mp hid)

private theorem moves_interested {c : Link} {peerBf : Bitfield}
    (h : setUp fresh network tf p (.interested c peerBf) = some stage') :
    SetUpMoves fresh network tf p (.interested c peerBf) stage' := by
  simp only [setUp, initInterested, Option.bind_eq_bind, Option.bind_some,
    Link.sendMessageToConn_eq] at h
  obtain ⟨⟨ok, c₁⟩, hsend, h⟩ := Option.bind_eq_some_iff.mp h
  cases h
  cases ok with
  | false => exact .notInterested hsend
  | true => exact .interested hsend

private theorem moves_state {c : Link} {peerBf : Bitfield}
    (h : setUp fresh network tf p (.state c peerBf) = some stage') :
    SetUpMoves fresh network tf p (.state c peerBf) stage' := by
  obtain ⟨⟨reply, c₁⟩, hreply, h⟩ := Option.bind_eq_some_iff.mp h
  obtain ⟨conn, hread, rfl⟩ := Link.readMessageFromConn_eq_some.mp hreply
  cases reply with
  | none =>
    cases h
    exact .notUnchoked hread nofun
  | some m =>
    cases h
    split_ifs with hid
    · exact .unchoked hread hid
    · exact .notUnchoked hread fun _ hm => Option.some.inj hm ▸ hid

theorem moves_of_setUp (h : setUp fresh network tf p stage = some stage') :
    SetUpMoves fresh network tf p stage stage' := by
  cases stage with
  | initConn =>
    rw [setUp_initConn] at h
    cases hstart : network p.addrText (decimal p.port.toNat) with
    | none =>
      rw [hstart] at h
      cases h
      exact .notConnected hstart
    | some r =>
      rw [hstart] at h
      cases h
      exact .connected hstart
  | handshake c => exact moves_handshake h
  | bitfield c => exact moves_bitfield h
  | interested c peerBf => exact moves_interested h
  | state c peerBf => exact moves_state h
  | downloading c peerBf => contradiction
  | returned c => contradiction

end BitTorrentBits
