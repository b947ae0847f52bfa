import BitTorrentBits.Pieces.Rounds
import BitTorrentBits.Wire.Link

/-!
# Downloading a piece over a link

`download_piece` of `client.c` on the bytes of a connection. A run over a link is a run over
the messages that are read off it, with the requests on the wire as far as `send` takes them.
-/

namespace BitTorrentBits.Link

open PieceProgress Message

def requestBlock (fresh : Nat → UInt8) (p : PieceProgress) (l : Link) :
    Option (Bool × PieceProgress × Link) :=
  let offset := blockOffset p.downloaded
  let (ok, payload) := requestMsgPayload p.index offset
  if !ok then some (false, p, l)
  else do
    let msgRequest ← initMessage MSG_ID_REQUEST
      (PIECE_INDEX_BYTES + BLOCK_OFFSET_BYTES + BLOCK_LENGTH_BYTES) payload
    let (ok, l') ← l.sendMessageToConn msgRequest
    if !ok then return (false, p, l')
    match ← l'.readMessageFromConn fresh with
    | (none, l'') => return (false, p, l'')
    | (some recvPieceMsg, l'') =>
      let (ok, p') ← receiveBlock p offset recvPieceMsg
      return (ok, p', l'')

/-- The loop over the blocks, in at most `fuel` rounds; running out of them is `none`. -/
def requestBlocks (fresh : Nat → UInt8) (numBlocks : Nat) :
    Nat → PieceProgress → Link → Option (Bool × PieceProgress × Link)
  | 0, _, _ => none
  | fuel + 1, p, l =>
    if p.downloaded < numBlocks then do
      let (ok, p', l') ← requestBlock fresh p l
      if !ok then return (false, p', l')
      requestBlocks fresh numBlocks fuel p' l'
    else some (true, p, l)

/-- Every round but the last adds one to `downloaded`. -/
def downloadPiece (fresh : Nat → UInt8) (p : PieceProgress) (l : Link) :
    Option (Bool × PieceProgress × Link) :=
  requestBlocks fresh (numBlocks p.size) (numBlocks p.size + 1) p l

def REQUEST_LEN : Nat := 17

def requestsGoThrough (l : Link) : List Bool := l.sends.map (·.sendsAll REQUEST_LEN)

/-- As many requests as this go through one after the other. -/
def SendsRequests (l : Link) (count : Nat) : Prop :=
  List.replicate count true <+: l.requestsGoThrough

theorem SendsRequests.of_le {l : Link} {count most : Nat} (h : l.SendsRequests most)
    (hle : count ≤ most) : l.SendsRequests count := by
  refine List.IsPrefix.trans ⟨List.replicate (most - count) true, ?_⟩ h
  rw [← List.replicate_add, Nat.add_sub_cancel' hle]

theorem SendsRequests.unbroken {l : Link} {count : Nat} (h : l.SendsRequests count) :
    l.Unbroken count := by
  intro o ho
  obtain ⟨k, hk, rfl⟩ := List.getElem_of_mem ho
  rw [List.length_take, Nat.lt_min] at hk
  have hgo : l.requestsGoThrough[k]? = some true := by
    rw [SendsRequests, List.prefix_iff_getElem?] at h
    have hk' := h k (by rw [List.length_replicate]; exact hk.1)
    rwa [List.getElem_replicate] at hk'
  rw [requestsGoThrough, List.getElem?_map, List.getElem?_eq_getElem hk.2, Option.map_some,
    Option.some.injEq] at hgo
  rw [List.getElem_take]
  exact SendOutcome.sigpipe_of_sendsAll hgo

/-- Between the two states of the link the messages `replies` have been read, and `chunks` are
what was taken of the requests from the one for block `k` on, the first `asked` whole. -/
structure Played (l l' : Link) (index k : Nat)
    (replies : List (Option Message)) (chunks : List (List UInt8)) (asked : Nat) : Prop where
  reads : ReadsOff l.conn replies l'.conn
  count : replies.length ≤ chunks.length
  sent : l'.sent = l.sent ++ chunks
  requests : List.Forall₂ (· <+: ·) chunks ((requestsFrom index k chunks.length).map wire)
  whole : (requestsFrom index k asked).map wire <+: chunks

variable {fresh : Nat → UInt8} {p p' : PieceProgress} {l l' l'' : Link} {index k n fuel asked : Nat}
  {replies more : List (Option Message)} {chunks : List (List UInt8)} {ok : Bool}

theorem requestMsg_wire_length (index offset : Nat) :
    (requestMsg index offset).wire.length = REQUEST_LEN := by
  rw [wire_length, requestMsg_payload]
  simp [REQUEST_LEN]

/-- How a round ends: the request is not sent, nothing is read, or a message is. -/
inductive Round (fresh : Nat → UInt8) (p : PieceProgress) (l : Link) :
    Bool → PieceProgress → Link → Prop
  | refused {l' : Link}
      (hsend : l.sendData (requestMsg p.index (blockOffset p.downloaded)).wire = some (false, l')) :
      Round fresh p l false p l'
  | silent {l' : Link} {c : Conn}
      (hsend : l.sendData (requestMsg p.index (blockOffset p.downloaded)).wire = some (true, l'))
      (hread : Message.readMessageFromConn fresh l'.conn = some (none, c)) :
      Round fresh p l false p { l' with conn := c }
  | answered {l' : Link} {c : Conn} {m : Message} {ok : Bool} {p' : PieceProgress}
      (hsend : l.sendData (requestMsg p.index (blockOffset p.downloaded)).wire = some (true, l'))
      (hread : Message.readMessageFromConn fresh l'.conn = some (some m, c))
      (hreceive : receiveBlock p (blockOffset p.downloaded) m = some (ok, p')) :
      Round fresh p l ok p' { l' with conn := c }

theorem round_of_requestBlock (h : requestBlock fresh p l = some (ok, p', l')) :
    Round fresh p l ok p' l' := by
  obtain ⟨hpayload, hinit⟩ := requestMsgPayload_eq p.index (blockOffset p.downloaded)
  simp only [requestBlock, hpayload, hinit, Bool.not_true, sendMessageToConn_eq,
    Option.bind_eq_bind, Option.bind_some, Bool.false_eq_true, if_false] at h
  obtain ⟨⟨sent, l₁⟩, hsend, h⟩ := Option.bind_eq_some_iff.mp h
  cases sent with
  | false =>
    cases h
    exact .refused hsend
  | true =>
    obtain ⟨⟨reply, l₂⟩, hread, hrest⟩ := Option.bind_eq_some_iff.mp h
    obtain ⟨c, hc, rfl⟩ := readMessageFromConn_eq_some.mp hread
    cases reply with
    | none =>
      cases hrest
      exact .silent hsend hc
    | some m =>
      obtain ⟨⟨ok', q⟩, hreceive, hlast⟩ := Option.bind_eq_some_iff.mp hrest
      cases hlast
      exact .answered hsend hc hreceive

theorem requestBlock_of_round (h : Round fresh p l ok p' l') :
    requestBlock fresh p l = some (ok, p', l') := by
  obtain ⟨hpayload, hinit⟩ := requestMsgPayload_eq p.index (blockOffset p.downloaded)
  simp only [requestBlock, hpayload, hinit, Bool.not_true, sendMessageToConn_eq,
    Option.bind_eq_bind, Option.bind_some, Bool.false_eq_true, if_false]
  cases h with
  | refused hsend => simp [hsend]
  | silent hsend hread => simp [hsend, readMessageFromConn_eq_some.mpr ⟨_, hread, rfl⟩]
  | answered hsend hread hreceive =>
    simp [hsend, readMessageFromConn_eq_some.mpr ⟨_, hread, rfl⟩, hreceive]

private theorem requestBlock_refused (p : PieceProgress) (replies : List (Option Message))
    (sent : List Message) : PieceProgress.requestBlock p ⟨[], replies, sent⟩ =
      some (false, p, ⟨[], replies, sent⟩) ∧
    ∀ sends, PieceProgress.requestBlock p ⟨false :: sends, replies, sent⟩ =
      some (false, p, ⟨sends, replies, sent⟩) := by
  obtain ⟨hpayload, hinit⟩ := requestMsgPayload_eq p.index (blockOffset p.downloaded)
  simp [PieceProgress.requestBlock, hpayload, hinit, Session.sendMessageToConn]

private theorem requestBlock_silent (p : PieceProgress) (sends : List Bool)
    (replies : List (Option Message)) (sent : List Message) :
    PieceProgress.requestBlock p ⟨true :: sends, none :: replies, sent⟩ =
      some (false, p, ⟨sends, replies, sent ++ requestsFrom p.index p.downloaded 1⟩) := by
  obtain ⟨hpayload, hinit⟩ := requestMsgPayload_eq p.index (blockOffset p.downloaded)
  simp [PieceProgress.requestBlock, hpayload, hinit, Session.sendMessageToConn,
    Session.readMessageFromConn, requestsFrom]

private theorem sent_whole {offset : Nat}
    (h : l.sendData (requestMsg index offset).wire = some (true, l')) :
    l.requestsGoThrough = true :: l'.requestsGoThrough ∧ l'.conn = l.conn ∧
      l'.sent = l.sent ++ [(requestMsg index offset).wire] := by
  have hlen := requestMsg_wire_length index offset
  rcases sendData_cases h with ⟨hfalse, -, -⟩ | ⟨o, hsends, -, hok, hconn, hsent⟩
  · contradiction
  · rw [SendOutcome.take_of_sendsAll (by rw [hlen]; decide) hok] at hsent
    rw [hlen] at hok
    exact ⟨by rw [requestsGoThrough, hsends, List.map_cons, hok]; rfl, hconn, hsent⟩

private theorem played_one {reply : Option Message} {c : Conn}
    (hsend : l.sendData (requestMsg index (blockOffset k)).wire = some (true, l'))
    (hread : Message.readMessageFromConn fresh l'.conn = some (reply, c)) :
    Played l { l' with conn := c } index k [reply]
      [(requestMsg index (blockOffset k)).wire] 1 := by
  obtain ⟨-, hconn, hsent⟩ := sent_whole hsend
  rw [hconn] at hread
  exact ⟨.cons hread (.nil c), Nat.le_refl 1, hsent, .cons (List.prefix_refl _) .nil,
    List.prefix_refl _⟩

private theorem Round.played (h : Round fresh p l ok p' l') :
    ∃ replies chunks asked, Played l l' p.index p.downloaded replies chunks asked ∧
      chunks.length ≤ 1 ∧
      (ok = true → chunks = [(requestMsg p.index (blockOffset p.downloaded)).wire] ∧ asked = 1) ∧
      ∀ more sent, PieceProgress.requestBlock p ⟨l.requestsGoThrough, replies ++ more, sent⟩ =
        some (ok, p', ⟨l'.requestsGoThrough, more,
          sent ++ requestsFrom p.index p.downloaded asked⟩) := by
  cases h with
  | refused hsend =>
    rcases sendData_cases hsend with ⟨-, rfl, hnil⟩ | ⟨o, hsends, -, hok, hconn, hsent⟩
    · refine ⟨[], [], 0,
        ⟨.nil _, Nat.le_refl 0, (List.append_nil _).symm, .nil, List.nil_prefix⟩, by simp,
        nofun, ?_⟩
      intro more sent
      rw [requestsGoThrough, hnil, List.map_nil, List.nil_append, (requestBlock_refused ..).1]
      simp [requestsFrom]
    · rw [requestMsg_wire_length] at hok
      refine ⟨[], [_], 0, ⟨hconn ▸ .nil _, Nat.zero_le 1, hsent,
        .cons (List.take_prefix _ _) .nil, List.nil_prefix⟩, by simp, nofun, ?_⟩
      intro more sent
      rw [requestsGoThrough, hsends, List.map_cons, hok, List.nil_append,
        (requestBlock_refused ..).2]
      simp [requestsFrom, requestsGoThrough]
  | silent hsend hread =>
    refine ⟨_, _, 1, played_one hsend hread, by simp, nofun, ?_⟩
    intro more sent
    rw [(sent_whole hsend).1, List.singleton_append, requestBlock_silent]
    rfl
  | @answered l₁ _ m ok _ hsend hread hreceive =>
    refine ⟨_, _, 1, played_one hsend hread, by simp, fun _ => ⟨rfl, rfl⟩, ?_⟩
    intro more sent
    rw [(sent_whole hsend).1, List.singleton_append, PieceProgress.requestBlock_eq, hreceive]
    rfl

private theorem Played.cons {first : List (Option Message)}
    (h : Played l l' index k first [(requestMsg index (blockOffset k)).wire] 1)
    (hrest : Played l' l'' index (k + 1) replies chunks asked) :
    Played l l'' index k (first ++ replies)
      ((requestMsg index (blockOffset k)).wire :: chunks) (asked + 1) := by
  refine ⟨h.reads.append hrest.reads, ?_, ?_, ?_, ?_⟩
  · have hfirst := h.count
    have hlater := hrest.count
    rw [List.length_singleton] at hfirst
    rw [List.length_append, List.length_cons]
    omega
  · rw [hrest.sent, h.sent, List.append_assoc, List.singleton_append]
  · rw [List.length_cons, requestsFrom_succ, List.map_cons]
    exact .cons (List.prefix_refl _) hrest.requests
  · rw [requestsFrom_succ, List.map_cons]
    exact (List.prefix_cons_inj _).mpr hrest.whole

/-- Every run over a link is one over the messages that it reads, with the same result. -/
theorem exists_played (h : requestBlocks fresh n fuel p l = some (ok, p', l')) :
    ∃ replies chunks asked, Played l l' p.index p.downloaded replies chunks asked ∧
      chunks.length ≤ n - p.downloaded ∧
      ∀ more sent, PieceProgress.requestBlocks n fuel p
        ⟨l.requestsGoThrough, replies ++ more, sent⟩ = some (ok, p', ⟨l'.requestsGoThrough, more,
          sent ++ requestsFrom p.index p.downloaded asked⟩) := by
  induction fuel generalizing p l with
  | zero => contradiction
  | succ fuel ih =>
    rw [requestBlocks] at h
    split_ifs at h with hlt
    · obtain ⟨⟨again, q, l₁⟩, hround, hrest⟩ := Option.bind_eq_some_iff.mp h
      obtain ⟨first, chunks₁, asked₁, hplayed, hlen, htrue, hrun⟩ :=
        (round_of_requestBlock hround).played
      cases again with
      | false =>
        cases hrest
        refine ⟨first, chunks₁, asked₁, hplayed, by omega, fun more sent => ?_⟩
        rw [PieceProgress.requestBlocks_succ hlt, hrun]
        rfl
      | true =>
        obtain ⟨rfl, rfl⟩ := htrue rfl
        change requestBlocks fresh n fuel q l₁ = _ at hrest
        obtain ⟨replies, chunks, asked, hafter, hcount, hruns⟩ := ih hrest
        obtain ⟨m, -, hreplies, -, -, -, hindex, hdown⟩ := requestBlock_eq_true (s := ⟨_, first, []⟩)
          (fun m hm => (hplayed.reads.payloadLen_lt hm).trans (by decide))
          (List.append_nil first ▸ hrun [] [])
        rw [hindex, hdown] at hafter
        refine ⟨first ++ replies, _, asked + 1, hplayed.cons hafter, ?_, fun more sent => ?_⟩
        · rw [List.length_cons]
          omega
        · rw [PieceProgress.requestBlocks_succ hlt, List.append_assoc, hrun, Option.bind_some]
          change PieceProgress.requestBlocks n fuel q _ = _
          rw [hruns, hindex, hdown, List.append_assoc]
          rfl
    · cases h
      refine ⟨[], [], 0,
        ⟨.nil _, Nat.le_refl 0, (List.append_nil _).symm, .nil, List.nil_prefix⟩, Nat.zero_le _,
        fun more sent => ?_⟩
      rw [PieceProgress.requestBlocks, if_neg hlt]
      simp [requestsFrom]

private theorem exists_round {reply : Option Message} {sent : List Message}
    {s' : Session} {c : Conn} {count : Nat} (hpipe : l.Unbroken (count + 1))
    (hread : Message.readMessageFromConn fresh l.conn = some (reply, c))
    (h : PieceProgress.requestBlock p ⟨l.requestsGoThrough, reply :: replies, sent⟩ =
      some (ok, p', s')) :
    ∃ again q l', Round fresh p l again q l' ∧ l'.Unbroken count := by
  obtain ⟨whole, l₁, hsend, hrest⟩ := hpipe.exists_sendData
    (requestMsg p.index (blockOffset p.downloaded)).wire
  cases whole with
  | false => exact ⟨_, _, _, .refused hsend, hrest⟩
  | true =>
    obtain ⟨hgo, hconn, -⟩ := sent_whole hsend
    rw [← hconn] at hread
    cases reply with
    | none => exact ⟨_, _, _, .silent hsend hread, hrest⟩
    | some m =>
      rw [hgo, PieceProgress.requestBlock_eq] at h
      obtain ⟨r, hreceive, -⟩ := Option.map_eq_some_iff.mp h
      exact ⟨_, _, _, .answered hsend hread hreceive, hrest⟩

/-- Every run over the messages that are read off a link is one over the link. -/
theorem exists_requestBlocks {sent : List Message} {s' : Session} {c : Conn}
    (hpipe : l.Unbroken (n - p.downloaded)) (hreads : ReadsOff l.conn replies c)
    (hlen : n ≤ p.downloaded + replies.length)
    (h : PieceProgress.requestBlocks n fuel p ⟨l.requestsGoThrough, replies, sent⟩ =
      some (ok, p', s')) : ∃ l', requestBlocks fresh n fuel p l = some (ok, p', l') := by
  induction fuel generalizing p l replies sent with
  | zero => contradiction
  | succ fuel ih =>
    by_cases hlt : p.downloaded < n
    · rw [PieceProgress.requestBlocks_succ hlt] at h
      obtain ⟨⟨again, q, s₁⟩, hround, hrest⟩ := Option.bind_eq_some_iff.mp h
      cases replies with
      | nil =>
        rw [List.length_nil] at hlen
        omega
      | cons reply replies =>
        obtain ⟨c₁, hread, hlater⟩ := hreads.exists_read fresh
        have hmore : n - p.downloaded = n - (p.downloaded + 1) + 1 := by omega
        rw [hmore] at hpipe
        obtain ⟨again', q', l₁, hr, hpipe'⟩ := exists_round hpipe hread hround
        have hbytes := requestBlock_of_round hr
        obtain ⟨first, _, asked, hplayed, hchunks, -, hrun⟩ := hr.played
        have hcount := hplayed.count
        obtain ⟨more, hsplit, hmore⟩ := hplayed.reads.split (.cons hread hlater) (by
          rw [List.length_cons]
          omega)
        rw [hsplit, hrun] at hround
        cases hround
        rw [requestBlocks, if_pos hlt, hbytes]
        cases again with
        | false =>
          cases hrest
          exact ⟨l₁, rfl⟩
        | true =>
          obtain ⟨m, -, hreplies, -, -, -, -, hdown⟩ := requestBlock_eq_true (s := ⟨_, first, []⟩)
            (fun m hm => (hplayed.reads.payloadLen_lt hm).trans (by decide))
            (List.append_nil first ▸ hrun [] [])
          have hone : first = [some m] := hreplies
          rw [hone, List.singleton_append, List.cons.injEq] at hsplit
          rw [List.length_cons, hsplit.2] at hlen
          exact ih (hdown ▸ hpipe') hmore (by omega) hrest
    · rw [requestBlocks, if_neg hlt]
      rw [PieceProgress.requestBlocks, if_neg hlt] at h
      cases h
      exact ⟨l, rfl⟩

theorem Listens.round (hl : l.Listens) (h : Round fresh p l ok p' l') : l'.Listens := by
  cases h with
  | refused hsend => exact hl.sendData hsend
  | silent hsend _ | answered hsend _ _ => exact (hl.sendData hsend).of_sends rfl

theorem Listens.requestBlocks (hl : l.Listens)
    (h : requestBlocks fresh n fuel p l = some (ok, p', l')) : l'.Listens := by
  induction fuel generalizing p l with
  | zero => contradiction
  | succ fuel ih =>
    rw [Link.requestBlocks] at h
    split_ifs at h
    · obtain ⟨⟨again, q, l₁⟩, hround, hrest⟩ := Option.bind_eq_some_iff.mp h
      have hl₁ := hl.round (round_of_requestBlock hround)
      cases again with
      | false =>
        cases hrest
        exact hl₁
      | true => exact ih hl₁ hrest
    · cases h
      exact hl

theorem exists_answers {size : Nat} {junk : Nat → UInt8}
    (h : downloadPiece fresh (initPieceProgress index size junk) l = some (true, p', l')) :
    ∃ ms, ReadsOff l.conn (ms.map some) l'.conn ∧ ms.length = numBlocks size ∧
      AnswersFrom index 0 ms ∧ fillBlocks 0 ms ((List.range size).map junk) = some p'.buf ∧
      p'.index = index := by
  rw [downloadPiece, initPieceProgress_size] at h
  obtain ⟨replies, _, _, hplayed, -, hrun⟩ := exists_played h
  obtain ⟨ms, hms⟩ := exists_completes (Nat.zero_le _) (fun m hm => by
    rw [List.append_nil] at hm
    exact (hplayed.reads.payloadLen_lt hm).trans (by decide)) (hrun [] [])
  have hreplies := hms.replies
  rw [List.append_nil, List.append_nil] at hreplies
  exact ⟨ms, hreplies ▸ hplayed.reads, (Nat.zero_add _).symm.trans hms.count, hms.answers,
    hms.filled, hms.index⟩

/-- What `download_piece` does with the bytes of a connection is what it does with the messages
that are read off it, and what it has put on the wire are the requests for the blocks from the
next one on, one after the other and none but the last round's cut short. The other way round, no
send for one of these blocks may raise SIGPIPE. -/
theorem downloadPiece_over_link {c : Conn} (hreads : ReadsOff l.conn replies c)
    (hlen : numBlocks p.size ≤ p.downloaded + replies.length) :
    (∀ ok p' l', downloadPiece fresh p l = some (ok, p', l') → ∃ taken more chunks asked,
      replies = taken ++ more ∧
      Played l l' p.index p.downloaded taken chunks asked ∧
      chunks.length ≤ numBlocks p.size - p.downloaded ∧
      PieceProgress.downloadPiece p ⟨l.requestsGoThrough, replies, []⟩ = some (ok, p',
        ⟨l'.requestsGoThrough, more, requestsFrom p.index p.downloaded asked⟩)) ∧
    (l.Unbroken (numBlocks p.size - p.downloaded) →
      ∀ ok p' s', PieceProgress.downloadPiece p ⟨l.requestsGoThrough, replies, []⟩ =
        some (ok, p', s') → ∃ l', downloadPiece fresh p l = some (ok, p', l')) := by
  constructor
  · intro ok p' l' h
    obtain ⟨taken, chunks, asked, hplayed, hcount, hrun⟩ := exists_played h
    have hreplies := hplayed.count
    obtain ⟨more, rfl, -⟩ := hplayed.reads.split hreads (by omega)
    exact ⟨taken, more, chunks, asked, rfl, hplayed, hcount, hrun more []⟩
  · intro hpipe ok p' s' h
    exact exists_requestBlocks hpipe hreads hlen h

theorem downloadPiece_over_link_one :
    ∃ l', downloadPiece (fun _ => 0) (initPieceProgress 0 1 fun _ => 0)
      ⟨⟨[[0, 0, 0, 10, 7, 0], [0, 0, 0, 0, 0, 0, 0, 9]]⟩, [⟨17, true, false⟩], []⟩ =
        some (true, ⟨0, [9], 1⟩, l') := by
  have hread : Message.readMessageFromConn (fun _ => 0)
      ⟨[[0, 0, 0, 10, 7, 0], [0, 0, 0, 0, 0, 0, 0, 9]]⟩ =
        some (some ⟨MSG_ID_PIECE, [0, 0, 0, 0, 0, 0, 0, 0, 9]⟩, ⟨[]⟩) := rfl
  have hreads : ReadsOff _ [some _] _ := .cons hread (.nil _)
  exact (downloadPiece_over_link hreads (by decide)).2 (by decide) _ _ _ rfl

end BitTorrentBits.Link
