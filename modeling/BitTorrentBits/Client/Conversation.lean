import BitTorrentBits.Client.SetUp

/-!
# What a thread says and hears

On its connection a thread sends a handshake, an `Interested` message and requests, and it
goes from one to the next only on what it has read. The pieces that it stores are made of
messages that it has read after all this, and of what a buffer held where they leave it as it is.
-/

namespace BitTorrentBits

open Bencode PieceProgress Message

/-- What a thread sends before its loop: a handshake and an `Interested` message. -/
def introduction (tf : TorrentFile) : List (List UInt8) :=
  match infoHashOf tf with
  | none => []
  | some infoHash =>
    [(HandshakeMsg.initHandshakeMsg infoHash MY_PEER_ID).encodeHandshakeMsg,
      wire ⟨MSG_ID_INTERESTED, []⟩]

/-- The reply has let the thread go on: its first segment, followed by what the new buffer happened
to hold where that is shorter than a handshake, has the info hash of the torrent in its place. -/
def Shakes (network : Network) (tf : TorrentFile) (p : TrackerResponse.Peer) (shaken : Conn) : Prop :=
  ∃ start sends infoHash segment junk,
    network p.addrText (decimal p.port.toNat) = some (start, sends) ∧
    infoHashOf tf = some infoHash ∧ start.pending.head? = some segment ∧ segment ≠ [] ∧
    NamesHash infoHash (replyBuf junk segment) ∧ shaken = (start.receiveData HANDSHAKE_LEN).2.2

/-- After such a reply the peer has sent a bitfield. -/
def Shows (network : Network) (tf : TorrentFile) (p : TrackerResponse.Peer) (peerBf : Bitfield)
    (shown : Conn) : Prop :=
  ∃ shaken bitfieldMsg, Shakes network tf p shaken ∧ ReadsOff shaken [some bitfieldMsg] shown ∧
    bitfieldMsg.id = MSG_ID_BITFIELD ∧ peerBf = ⟨bitfieldMsg.payload⟩

/-- Then it has unchoked, and after that sent `replies`. -/
def Serves (network : Network) (tf : TorrentFile) (p : TrackerResponse.Peer) (peerBf : Bitfield)
    (replies : List (Option Message)) (c : Conn) : Prop :=
  ∃ shown recvMsg unchoking, Shows network tf p peerBf shown ∧
    ReadsOff shown [some recvMsg] unchoking ∧ recvMsg.id = MSG_ID_UNCHOKE ∧
    ReadsOff unchoking replies c

/-- The bytes are what a buffer of the size of a piece holds after consecutive answers to the
requests for piece `i`, one for each block, that were read from a peer whose bitfield has the
piece. Where no block comes to lie they are what the buffer held before, and nobody has sent
them. -/
def SentBy (network : Network) (tf : TorrentFile) (p : TrackerResponse.Peer) (i : Nat)
    (buf : List UInt8) : Prop :=
  ∃ peerBf before ms c memory, Serves network tf p peerBf (before ++ ms.map some) c ∧
    peerBf.hasPiece i = some true ∧ ms.length = numBlocks tf.pieceLength ∧
    AnswersFrom i 0 ms ∧ memory.length = tf.pieceLength ∧ fillBlocks 0 ms memory = some buf

/-- The bytes are what was taken of the requests of one attempt after the other, each for the
first blocks of a piece that the bitfield has. -/
def Asks (tf : TorrentFile) (peerBf : Bitfield) (chunks : List (List UInt8)) : Prop :=
  ∃ attempts : List (Nat × Nat),
    List.Forall₂ (· <+: ·) chunks
      ((attempts.flatMap fun a => requestsFrom a.1 0 a.2).map wire) ∧
    ∀ a ∈ attempts, peerBf.hasPiece a.1 = some true ∧ a.2 ≤ numBlocks tf.pieceLength

/-- After the introduction the thread has only asked for pieces that its peer has. -/
def Talks (network : Network) (tf : TorrentFile) (p : TrackerResponse.Peer)
    (peerBf : Bitfield) (c : Link) : Prop :=
  ∃ replies chunks, Serves network tf p peerBf replies c.conn ∧
    c.sent = introduction tf ++ chunks ∧ Asks tf peerBf chunks

/-- The introduction has been begun, its second part after the bitfield, and nothing else has
been sent. -/
def Begins (network : Network) (tf : TorrentFile) (p : TrackerResponse.Peer)
    (sent : List (List UInt8)) : Prop :=
  (∃ texts, List.Forall₂ (· <+: ·) sent texts ∧ texts <+: introduction tf) ∧
    (1 < sent.length → ∃ peerBf shown, Shows network tf p peerBf shown)

/-- What the thread has in its hands has been asked for and sent as it should. -/
def AtCall (network : Network) (tf : TorrentFile) (p : TrackerResponse.Peer)
    (peerBf : Bitfield) : Pc → Prop
  | .downloadPiece i => peerBf.hasPiece i = some true
  | .addPiece q => SentBy network tf p q.index q.buf
  | _ => True

/-- What holds of a thread at each stage, with the next call of its loop. -/
def Stands (network : Network) (tf : TorrentFile) (p : TrackerResponse.Peer)
    (pc : Pc) : Stage → Prop
  | .initConn => True
  | .handshake c => c.sent = [] ∧
      ∃ sends, network p.addrText (decimal p.port.toNat) = some (c.conn, sends)
  | .bitfield c => c.sent = (introduction tf).take 1 ∧ Shakes network tf p c.conn
  | .interested c peerBf => c.sent = (introduction tf).take 1 ∧ Shows network tf p peerBf c.conn
  | .state c peerBf => c.sent = introduction tf ∧ Shows network tf p peerBf c.conn
  | .downloading c peerBf => Talks network tf p peerBf c ∧ AtCall network tf p peerBf pc
  | .returned none => True
  | .returned (some c) => Begins network tf p c.sent ∨ ∃ peerBf, Talks network tf p peerBf c

variable {fresh : Stale} {network : Network} {tf : TorrentFile} {p : TrackerResponse.Peer}
  {pc : Pc} {c c' : Link} {peerBf : Bitfield} {stage : Stage} {ok : Bool}

theorem introduction_eq {infoHash : List.Vector UInt8 BT_HASH_LENGTH}
    (h : infoHashOf tf = some infoHash) : introduction tf =
      [(HandshakeMsg.initHandshakeMsg infoHash MY_PEER_ID).encodeHandshakeMsg,
        wire ⟨MSG_ID_INTERESTED, []⟩] := by
  rw [introduction, h]

theorem Shows.infoHash (h : Shows network tf p peerBf c.conn) :
    ∃ infoHash, infoHashOf tf = some infoHash := by
  obtain ⟨_, _, ⟨_, _, infoHash, _, _, _, hhash, _⟩, _⟩ := h
  exact ⟨infoHash, hhash⟩

theorem begins_take {sent : List (List UInt8)} {n : Nat} (h : sent = (introduction tf).take n)
    (hshows : 1 < n → ∃ peerBf shown, Shows network tf p peerBf shown) :
    Begins network tf p sent := by
  refine ⟨⟨sent, List.forall₂_same.mpr fun text _ => List.prefix_refl text, ?_⟩, fun hlen => ?_⟩
  · rw [h]
    exact List.take_prefix _ _
  · have hle := List.length_take_le n (introduction tf)
    exact hshows (hlen.trans_le (h ▸ hle))

theorem begins_of_sendData {buf : List UInt8} {n : Nat} (hsent : c.sent = (introduction tf).take n)
    (hshows : 0 < n → ∃ peerBf shown, Shows network tf p peerBf shown)
    (hbuf : (introduction tf)[n]? = some buf) (h : c.sendData buf = some (ok, c')) :
    Begins network tf p c'.sent := by
  have hle : c.sent.length ≤ n := hsent ▸ List.length_take_le n (introduction tf)
  rcases Link.sendData_cases h with ⟨-, rfl, -⟩ | ⟨o, -, -, -, -, hafter⟩
  · exact begins_take hsent fun hn => hshows (Nat.zero_lt_of_lt hn)
  · refine ⟨⟨(introduction tf).take n ++ [buf], ?_, ?_⟩, fun hlen => ?_⟩
    · rw [hafter, hsent]
      exact List.rel_append (List.forall₂_same.mpr fun text _ => List.prefix_refl text)
        (.cons (List.take_prefix _ _) .nil)
    · rw [← Option.toList_some, ← hbuf, ← List.take_add_one]
      exact List.take_prefix _ _
    · rw [hafter, List.length_append, List.length_singleton] at hlen
      exact hshows (by omega)

theorem stands_setUp (h : Stands network tf p .isDone stage) {stage' : Stage}
    (hsetUp : setUp fresh network tf p stage = some stage') :
    Stands network tf p .isDone stage' := by
  cases moves_of_setUp hsetUp with
  | notConnected _ => trivial
  | @connected _ sends hstart => exact ⟨rfl, sends, hstart⟩
  | @notShaken c c₁ _ _ _ hhash hsend _ =>
    have hbegins : Begins network tf p c₁.sent :=
      begins_of_sendData (n := 0) h.1 nofun (by rw [introduction_eq hhash]; rfl) hsend
    exact Or.inl hbegins
  | shaken hhash hsend hperform =>
    obtain ⟨hnil, sends, hstart⟩ := h
    obtain ⟨hconn, hsent⟩ := Link.sendData_whole (by
      rw [Conn.sent_length]
      decide) hsend
    rw [hconn] at hperform
    obtain ⟨segment, hhead, hne, hnames, hafter⟩ := performHandshake_eq_true_iff.mp hperform
    refine ⟨?_, _, sends, _, segment, _, hstart, hhash, hhead, hne, hnames, hafter⟩
    rw [introduction_eq hhash, hsent, hnil]
    rfl
  | notShown _ _ => exact Or.inl (begins_take h.1 nofun)
  | shown hread hid => exact ⟨h.1, _, _, h.2, .cons hread (.nil _), hid, rfl⟩
  | notInterested hsend =>
    obtain ⟨infoHash, hhash⟩ := h.2.infoHash
    exact Or.inl (begins_of_sendData h.1 (fun _ => ⟨_, _, h.2⟩) (by rw [introduction_eq hhash]; rfl)
      hsend)
  | interested hsend =>
    obtain ⟨hsent, hshows⟩ := h
    obtain ⟨infoHash, hhash⟩ := hshows.infoHash
    obtain ⟨hconn, hafter⟩ := Link.sendData_whole (by
      rw [wire_length]
      decide) hsend
    refine ⟨?_, hconn ▸ hshows⟩
    rw [hafter, hsent, introduction_eq hhash]
    rfl
  | notUnchoked _ _ =>
    obtain ⟨hsent, hshows⟩ := h
    exact Or.inl (begins_take (n := (introduction tf).length) (hsent.trans List.take_length.symm)
      fun _ => ⟨_, _, hshows⟩)
  | unchoked hread hid =>
    obtain ⟨hsent, hshows⟩ := h
    exact ⟨⟨[], [], ⟨_, _, _, hshows, .cons hread (.nil _), hid, .nil _⟩,
      hsent.trans (List.append_nil _).symm, [], .nil, nofun⟩, trivial⟩

theorem Serves.append {before replies : List (Option Message)} {conn conn' : Conn}
    (h : Serves network tf p peerBf before conn) (hreads : ReadsOff conn replies conn') :
    Serves network tf p peerBf (before ++ replies) conn' := by
  obtain ⟨shown, recvMsg, unchoking, hshows, hread, hid, hbefore⟩ := h
  exact ⟨shown, recvMsg, unchoking, hshows, hread, hid, hbefore.append hreads⟩

theorem Asks.append {chunks more : List (List UInt8)} {i : Nat} (h : Asks tf peerBf chunks)
    (hmore : List.Forall₂ (· <+: ·) more ((requestsFrom i 0 more.length).map wire))
    (hbit : peerBf.hasPiece i = some true) (hlen : more.length ≤ numBlocks tf.pieceLength) :
    Asks tf peerBf (chunks ++ more) := by
  obtain ⟨attempts, hchunks, hall⟩ := h
  refine ⟨attempts ++ [(i, more.length)], ?_, ?_⟩
  · rw [List.flatMap_append, List.flatMap_singleton, List.map_append]
    exact List.rel_append hchunks hmore
  · intro a ha
    rcases List.mem_append.mp ha with ha | ha
    · exact hall a ha
    · rw [List.mem_singleton.mp ha]
      exact ⟨hbit, hlen⟩

theorem talks_downloadPiece {i : Nat} {p' : PieceProgress} (h : Talks network tf p peerBf c)
    (hbit : peerBf.hasPiece i = some true)
    (hdown : c.downloadPiece (fresh 1) (initPieceProgress i tf.pieceLength (fresh 0)) =
      some (ok, p', c')) :
    Talks network tf p peerBf c' ∧
      (ok = true → SentBy network tf p p'.index p'.buf) := by
  obtain ⟨before, chunks, hserves, hsent, hasks⟩ := h
  constructor
  · rw [Link.downloadPiece, initPieceProgress_size] at hdown
    obtain ⟨replies, more, _, hplayed, hlen, -⟩ := Link.exists_played hdown
    refine ⟨before ++ replies, chunks ++ more, hserves.append hplayed.reads, ?_,
      hasks.append hplayed.requests hbit hlen⟩
    rw [hplayed.sent, hsent, List.append_assoc]
  · rintro rfl
    obtain ⟨ms, hreads, hcount, hanswers, hfilled, hindex⟩ := Link.exists_answers hdown
    rw [hindex]
    exact ⟨peerBf, before, ms, c'.conn, _, hserves.append hreads, hbit, hcount, hanswers, by simp,
      hfilled⟩

theorem talks_loopCall {action : Action} (h : Talks network tf p peerBf c)
    (hat : AtCall network tf p peerBf pc)
    (hcall : loopCall fresh tf c peerBf pc = some (action, c')) :
    Talks network tf p peerBf c' ∧
      (∀ i answer, pc = .hasPiece i → action = .hasPiece answer →
        peerBf.hasPiece i = some answer) ∧
      ∀ p', action = .downloadPiece (some p') → SentBy network tf p p'.index p'.buf := by
  cases pc with
  | hasPiece i =>
    obtain ⟨answer, hanswer, hcall⟩ := Option.bind_eq_some_iff.mp hcall
    cases hcall
    refine ⟨h, ?_, nofun⟩
    rintro _ _ ⟨⟩ ⟨⟩
    exact hanswer
  | downloadPiece i =>
    obtain ⟨⟨ok, p', c₁⟩, hdown, hcall⟩ := Option.bind_eq_some_iff.mp hcall
    cases hcall
    obtain ⟨htalks, hgood⟩ := talks_downloadPiece h hat hdown
    refine ⟨htalks, nofun, fun q hq => ?_⟩
    cases ok with
    | false => cases hq
    | true =>
      cases hq
      exact hgood rfl
  | left d => contradiction
  | isDone | getPieceIndex | addPiece _ | markAsUndone _ =>
    cases hcall
    exact ⟨h, nofun, nofun⟩

theorem stands_call {W : Nat} {s swarm : Swarm W} {w : Fin W} {action : Action}
    (h : Stands network tf p (s.workers w).pc (.downloading c peerBf))
    (hcall : loopCall fresh tf c peerBf (s.workers w).pc = some (action, c'))
    (hm : Swarm.Moves (fresh 0) s w action swarm) :
    Stands network tf p (swarm.workers w).pc (.downloading c' peerBf) := by
  obtain ⟨htalks, hbit, hgood⟩ := talks_loopCall h.1 h.2 hcall
  refine ⟨htalks, ?_⟩
  cases hm with
  | isDone d _ _ =>
    rw [Swarm.goto_self, Swarm.loopTest]
    split_ifs <;> trivial
  | hasPiece i answer hpc =>
    rw [Swarm.goto_self]
    cases answer with
    | false => trivial
    | true => exact hbit i true hpc rfl
  | downloaded q _ _ =>
    rw [Swarm.goto_self]
    exact hgood q rfl
  | notDownloaded i _ =>
    rw [Swarm.goto_self]
    trivial
  | getPieceIndex i _ _ _ =>
    change AtCall network tf p peerBf ((s.goto w (.hasPiece i)).workers w).pc
    rw [Swarm.goto_self]
    trivial
  | addPiece _ _ _ _ =>
    change AtCall network tf p peerBf ((s.goto w .isDone).workers w).pc
    rw [Swarm.goto_self]
    trivial
  | markAsUndone _ _ _ _ =>
    change AtCall network tf p peerBf ((s.fail w).workers w).pc
    rw [Swarm.fail_self]
    trivial

def Stage.link : Stage → Option Link
  | .initConn => none
  | .handshake c | .bitfield c | .interested c _ | .state c _ | .downloading c _ => some c
  | .returned c => c

namespace Client

variable {W : Nat} {network : Fin W → Network} {peers : Fin W → TrackerResponse.Peer}
  {s s' : Client W} {w : Fin W}

/-- Every thread stands as it should, with the peer that it was made for. -/
def Settled (network : Fin W → Network) (tf : TorrentFile)
    (peers : Fin W → TrackerResponse.Peer) (s : Client W) (w : Fin W) : Prop :=
  (s.threads w).p = peers w ∧
    Stands (network w) tf (peers w) (s.swarm.workers w).pc (s.threads w).stage

theorem settled_of_moves (h : ∀ v, Settled network tf peers s v)
    (hstep : (s.threads w).InStep (s.swarm.workers w)) (hm : Moves fresh network tf s w s')
    (v : Fin W) : Settled network tf peers s' v := by
  by_cases hv : v = w
  · subst hv
    obtain ⟨hp, hstands⟩ := h v
    cases hm with
    | setUp hsetUp =>
      obtain ⟨-, hworker⟩ := begun_of_setUp hstep hsetUp
      refine ⟨by rw [enter_self, hp], ?_⟩
      rw [enter_self]
      change Stands _ _ _ (s.swarm.workers v).pc _
      rw [hworker] at hstands ⊢
      rw [hp] at hsetUp
      exact stands_setUp hstands hsetUp
    | call hstage hcall hcalled =>
      refine ⟨?_, ?_⟩
      · change ((s.enter v _).threads v).p = _
        rw [enter_self, hp]
      · change Stands _ _ _ _ ((s.enter v _).threads v).stage
        rw [enter_self]
        rw [hstage] at hstands
        exact stands_call hstands hcall (Swarm.moves_of_step hcalled)
    | succeed hstage hpc =>
      rw [hstage] at hstands
      refine ⟨by rw [succeed_self, hp], ?_⟩
      rw [succeed_self]
      exact Or.inr ⟨_, hstands.1⟩
  · obtain ⟨hthread, hworker⟩ := hm.of_ne hv
    rw [Settled, hthread, hworker]
    exact h v

theorem reachable_settled (h : (client network tf peers).Reachable s) (w : Fin W) :
    Settled network tf peers s w := by
  have hall := h.invariant
    (P := fun s => ∀ w, (s.threads w).InStep (s.swarm.workers w) ∧
      Settled network tf peers s w)
    (fun w => ⟨⟨rfl, rfl⟩, rfl, trivial⟩) fun s label s' hs hstep v => by
      have hm := moves_of_step hstep
      exact ⟨inStep_of_moves (fun v => (hs v).1) hm v,
        settled_of_moves (fun v => (hs v).2) (hs label.1).1 hm v⟩
  exact (hall w).2

end Client

end BitTorrentBits
