import BitTorrentBits.Wire.Conn
import BitTorrentBits.Wire.DecodeHandshakeMsg

/-!
# The handshake with a peer

The first step of `download_torrent_thread_fun` on a connection: it sends a handshake,
receives the reply with one `receive_data`, and decodes as many bytes as it asked for.
-/

namespace BitTorrentBits

open HandshakeMsg

def MY_PEER_ID : List.Vector UInt8 PEER_ID_LENGTH := ⟨ascii "BTB-0123456789abcdef", rfl⟩

/-- Whether the thread goes on after the handshake, and the connection then. `sent` is what
`send_data` returns, `fresh` and `freshPstr` are what the new `hm_buf` and the new `pstr`
happen to hold; `none` is an access outside them, or to the reply's message after it has been
freed. -/
def performHandshake (fresh freshPstr : Nat → UInt8) (infoHash : List.Vector UInt8 BT_HASH_LENGTH)
    (sent : Bool) (c : Conn) : Option (Bool × Conn) := do
  let hm := initHandshakeMsg infoHash MY_PEER_ID
  let hmEncoded := hm.encodeHandshakeMsg
  if !sent then return (false, c)
  let hmBuf ← malloc fresh hmEncoded.length
  let (bytesReceive, got, c') := c.receiveData hmEncoded.length
  let hmBuf ← writeAt hmBuf 0 got
  if bytesReceive ≤ 0 then return (false, c')
  match ← decodeHandshakeMsg freshPstr hmBuf hmEncoded.length with
  | none => return (false, c')
  | some hmReply => return (decide (hmReply.infoHash = hm.infoHash), c')

/-- The bytes of a handshake with a protocol string of 19 bytes. -/
def HANDSHAKE_LEN : Nat := FIXED_LEN + 19

def infoHashField (bytes : List UInt8) : List UInt8 :=
  (bytes.drop (1 + 19 + HANDSHAKE_RESERVED_LEN)).take BT_HASH_LENGTH

private theorem infoHash_of_encode (hm : HandshakeMsg) (after : List UInt8) :
    ((hm.encodeHandshakeMsg ++ after).drop (1 + hm.pstrlen + HANDSHAKE_RESERVED_LEN)).take
      BT_HASH_LENGTH = hm.infoHash.toList := by
  have hsplit : hm.encodeHandshakeMsg ++ after =
      (UInt8.ofNat hm.pstrlen :: hm.text ++ hm.reserved.toList) ++
        (hm.infoHash.toList ++ (hm.peerId.toList ++ after)) := by
    simp [encodeHandshakeMsg]
  have hbefore : (UInt8.ofNat hm.pstrlen :: hm.text ++ hm.reserved.toList).length =
      1 + hm.pstrlen + HANDSHAKE_RESERVED_LEN := by
    simp only [List.length_append, List.length_cons, text_length, List.Vector.toList_length]
    omega
  rw [hsplit, List.drop_left' hbefore, List.take_left' hm.infoHash.toList_length]

namespace Conn

/-- The first `recv` delivers a whole handshake. -/
def HandshakeArrivesWhole (c : Conn) : Prop :=
  ∃ segment, c.pending.head? = some segment ∧ HANDSHAKE_LEN ≤ segment.length

/-- The step takes the bytes of the peer's handshake and no more off the connection, and goes
on exactly when the info hash in them is the torrent's, whatever its buffers held before. -/
def ShakesHands (infoHash : List.Vector UInt8 BT_HASH_LENGTH) (reply rest : List UInt8)
    (c : Conn) : Prop :=
  ∀ fresh freshPstr, ∃ c', performHandshake fresh freshPstr infoHash true c =
    some (decide (infoHashField reply = infoHash.toList), c') ∧ c'.Delivers rest

variable {infoHash : List.Vector UInt8 BT_HASH_LENGTH} {fresh freshPstr : Nat → UInt8}
  {reply rest : List UInt8} {c : Conn}

theorem sent_length : (initHandshakeMsg infoHash MY_PEER_ID).encodeHandshakeMsg.length =
    HANDSHAKE_LEN := encodeHandshakeMsg_length _

private theorem conn_of_performHandshake {ok : Bool} {c' : Conn}
    (h : performHandshake fresh freshPstr infoHash true c = some (ok, c')) :
    c' = (c.receiveData HANDSHAKE_LEN).2.2 := by
  unfold performHandshake at h
  simp only [sent_length, Bool.not_true, Bool.false_eq_true, if_false] at h
  obtain ⟨hmBuf, -, h⟩ := Option.bind_eq_some_iff.mp h
  obtain ⟨hmBuf', -, h⟩ := Option.bind_eq_some_iff.mp h
  split at h
  · cases h
    rfl
  · obtain ⟨decoded, -, h⟩ := Option.bind_eq_some_iff.mp h
    cases decoded <;> cases h <;> rfl

private theorem performHandshake_of_received {c' : Conn} (hlen : reply.length = HANDSHAKE_LEN)
    (hfirst : reply.head? = some 19)
    (hrecv : c.receiveData HANDSHAKE_LEN = ((reply.length : Int), reply, c')) :
    performHandshake fresh freshPstr infoHash true c =
      some (decide (infoHashField reply = infoHash.toList), c') := by
  obtain ⟨hm, after, -, hn, hreply⟩ : ∃ (hm : HandshakeMsg) (after : List UInt8),
      hm.Terminated ∧ hm.pstrlen = 19 ∧ reply = hm.encodeHandshakeMsg ++ after := by
    cases reply with
    | nil => contradiction
    | cons b tail =>
      cases hfirst
      have hb : (19 : UInt8).toNat < 128 := by decide
      rcases short_or_encoded tail hb with hshort | hencoded
      · exact absurd hshort (by rw [hlen]; decide)
      · exact hencoded
  obtain ⟨hmBuf, hmalloc, hroom⟩ := exists_malloc fresh (n := HANDSHAKE_LEN) (by decide)
  have hwrite : writeAt hmBuf 0 reply = some reply := by
    rw [writeAt_of_le (by omega), Nat.zero_add, List.drop_eq_nil_of_le (by omega)]
    simp
  have hdec : decodeHandshakeMsg freshPstr reply HANDSHAKE_LEN = some (some hm.clip) := by
    have h := decodeHandshakeMsg_encode freshPstr (by omega : hm.pstrlen < 128) after
    rw [← hreply, hlen] at h
    exact h
  have hfield : infoHashField reply = hm.infoHash.toList := by
    rw [infoHashField, hreply, ← hn, infoHash_of_encode]
  unfold performHandshake
  simp only [sent_length, Bool.not_true, Bool.false_eq_true, if_false, hmalloc, hrecv, hwrite,
    Option.bind_eq_bind, Option.bind_some, hdec]
  rw [if_neg (by rw [hlen]; decide), hfield]
  change some (decide (hm.infoHash = infoHash), c') = _
  have hsame : hm.infoHash = infoHash ↔ hm.infoHash.toList = infoHash.toList := Subtype.ext_iff
  simp only [hsame]

/-- Over every splitting of a stream that begins with a handshake, the step reads that
handshake, decides by its info hash alone and leaves the rest exactly when the first `recv`
brings all of it. -/
theorem shakesHands_iff_handshakeArrivesWhole (infoHash : List.Vector UInt8 BT_HASH_LENGTH)
    (hlen : reply.length = HANDSHAKE_LEN) (hfirst : reply.head? = some 19)
    (h : c.Delivers (reply ++ rest)) :
    c.ShakesHands infoHash reply rest ↔ c.HandshakeArrivesWhole := by
  have hne : reply ++ rest ≠ [] := by
    intro hnil
    rw [(List.append_eq_nil_iff.mp hnil).1] at hfirst
    contradiction
  obtain ⟨segment, pending, rfl⟩ := h.exists_cons hne
  obtain ⟨hseg, hpending, hstream⟩ := h.cons
  have hrecv : receiveData ⟨segment :: pending⟩ HANDSHAKE_LEN = _ :=
    receiveData_cons hseg (by decide) (by decide)
  constructor
  · intro hshakes
    obtain ⟨c', hstep, hrest⟩ := hshakes (fun _ => 0) (fun _ => 0)
    refine ⟨segment, rfl, Nat.le_of_not_lt fun hshort => ?_⟩
    have hafter := conn_of_performHandshake hstep
    rw [hrecv, if_pos (Nat.le_of_lt hshort)] at hafter
    have hlens := congrArg List.length (hstream.trans (congrArg (segment ++ ·) (hafter ▸ hrest.2)))
    simp only [List.length_append] at hlens
    omega
  · rintro ⟨first, hhead, hwhole⟩
    cases hhead
    have htake : segment.take HANDSHAKE_LEN = reply := by
      have hboth := congrArg (List.take HANDSHAKE_LEN) hstream
      rw [List.take_left' hlen, List.take_append_of_le_length hwhole] at hboth
      exact hboth.symm
    have hdrop : segment.drop HANDSHAKE_LEN ++ pending.flatten = rest := by
      have hboth := congrArg (List.drop HANDSHAKE_LEN) hstream
      rw [List.drop_left' hlen, List.drop_append_of_le_length hwhole] at hboth
      exact hboth.symm
    rw [htake] at hrecv
    have hdel : Delivers _ (segment.drop HANDSHAKE_LEN ++ pending.flatten) :=
      delivers_after HANDSHAKE_LEN hpending
    rw [hdrop] at hdel
    exact fun fresh freshPstr => ⟨_, performHandshake_of_received hlen hfirst hrecv, hdel⟩

/-- After 20 bytes of a handshake the step stops receiving, and leaves the other 48. -/
theorem shakesHands_fails_on_split_reply :
    ¬ ∀ (infoHash : List.Vector UInt8 BT_HASH_LENGTH) (reply rest : List UInt8) (c : Conn),
      reply.length = HANDSHAKE_LEN → reply.head? = some 19 → c.Delivers (reply ++ rest) →
      c.ShakesHands infoHash reply rest := by
  intro h
  obtain ⟨c', hstep, -, hrest⟩ := h (List.Vector.replicate _ 7) (19 :: List.replicate 67 7) []
    ⟨[19 :: List.replicate 19 7, List.replicate 48 7]⟩ rfl rfl ⟨by decide, rfl⟩
    (fun _ => 0) (fun _ => 0)
  rw [conn_of_performHandshake hstep] at hrest
  exact absurd hrest (by decide)

theorem shakesHands_iff_handshakeArrivesWhole_one :
    ShakesHands (List.Vector.replicate _ 7) (19 :: List.replicate 67 7) [0, 0, 0, 2]
      ⟨[19 :: List.replicate 67 7 ++ [0, 0], [0, 2]]⟩ :=
  (shakesHands_iff_handshakeArrivesWhole _ rfl rfl ⟨by decide, rfl⟩).mpr
    ⟨_, rfl, by decide⟩

end Conn

/-- What is decoded for a reply: the bytes of the first `recv` over what the buffer held before. -/
def replyBuf (fresh : Nat → UInt8) (segment : List UInt8) : List UInt8 :=
  segment.take HANDSHAKE_LEN ++ ((List.range HANDSHAKE_LEN).map fresh).drop segment.length

/-- Behind a protocol string of at most 19 bytes the buffer has this info hash. -/
def NamesHash (infoHash : List.Vector UInt8 BT_HASH_LENGTH) (buf : List UInt8) : Prop :=
  ∃ b, buf.head? = some b ∧ b.toNat ≤ 19 ∧
    (buf.drop (1 + b.toNat + HANDSHAKE_RESERVED_LEN)).take BT_HASH_LENGTH = infoHash.toList

private theorem namesHash_encode_iff {infoHash : List.Vector UInt8 BT_HASH_LENGTH} {hm : HandshakeMsg}
    {b : UInt8} {bytes after : List UInt8} (hb : b.toNat ≤ 19) (hn : hm.pstrlen = b.toNat)
    (hbuf : b :: bytes = hm.encodeHandshakeMsg ++ after) :
    NamesHash infoHash (b :: bytes) ↔ hm.infoHash = infoHash := by
  have hfield : ((b :: bytes).drop (1 + b.toNat + HANDSHAKE_RESERVED_LEN)).take BT_HASH_LENGTH =
      hm.infoHash.toList := by
    rw [hbuf, ← hn]
    exact infoHash_of_encode hm after
  constructor
  · rintro ⟨b', hhead, -, hhash⟩
    cases hhead
    exact Subtype.ext (hfield.symm.trans hhash)
  · rintro rfl
    exact ⟨b, rfl, hb, hfield⟩

private theorem decode_reply (freshPstr : Nat → UInt8) {b : UInt8} {bytes : List UInt8}
    (hlen : (b :: bytes).length = HANDSHAKE_LEN) :
    (HANDSHAKE_LEN ≤ b.toNat ∧
      decodeHandshakeMsg freshPstr (b :: bytes) HANDSHAKE_LEN = none) ∨
    b.toNat < HANDSHAKE_LEN ∧ ∃ decoded,
      decodeHandshakeMsg freshPstr (b :: bytes) HANDSHAKE_LEN = some decoded ∧
      ∀ infoHash : List.Vector UInt8 BT_HASH_LENGTH,
        (decoded.any fun hm => decide (hm.infoHash = infoHash)) = true ↔
          NamesHash infoHash (b :: bytes) := by
  by_cases hb : b.toNat < HANDSHAKE_LEN
  · refine Or.inr ⟨hb, ?_⟩
    have hb' : b.toNat < 128 := hb.trans (by decide)
    have hstr : 1 + b.toNat ≤ (b :: bytes).length := by omega
    rcases short_or_encoded bytes hb' with hshort | ⟨hm, after, -, hn, hbuf⟩
    · obtain ⟨decoded, hdecode, hnull⟩ := decodesSafely_of_safe freshPstr hb' hstr
      rw [hlen] at hdecode hshort
      refine ⟨decoded, hdecode, fun infoHash => ?_⟩
      rw [hnull.mpr (Or.inr ⟨b, rfl, hlen ▸ hshort⟩)]
      refine iff_of_false Bool.false_ne_true ?_
      rintro ⟨b', hhead, hle, -⟩
      cases hhead
      rw [HANDSHAKE_LEN] at hshort
      omega
    · have hdecode := decodeHandshakeMsg_encode freshPstr (hn ▸ hb') after
      rw [← hbuf, hlen] at hdecode
      have hwhole := congrArg List.length hbuf
      rw [hlen, List.length_append, encodeHandshakeMsg_length, HANDSHAKE_LEN] at hwhole
      refine ⟨_, hdecode, fun infoHash => ?_⟩
      rw [namesHash_encode_iff (by omega) hn hbuf, Option.any_some, decide_eq_true_iff]
      rfl
  · refine Or.inl ⟨Nat.le_of_not_lt hb, ?_⟩
    rw [← hlen]
    exact decodeHandshakeMsg_eq_none freshPstr (Or.inr (by omega))

private theorem performHandshake_failed (fresh freshPstr : Nat → UInt8)
    (infoHash : List.Vector UInt8 BT_HASH_LENGTH) {c c' : Conn} {received : Int}
    (h : c.receiveData HANDSHAKE_LEN = (received, [], c')) (hfail : received ≤ 0) :
    performHandshake fresh freshPstr infoHash true c = some (false, c') := by
  obtain ⟨hmBuf, hmalloc, -⟩ := exists_malloc fresh (n := HANDSHAKE_LEN) (by decide)
  have hempty : writeAt hmBuf 0 [] = some _ := writeAt_of_le (Nat.zero_le _)
  unfold performHandshake
  simp only [Conn.sent_length, hmalloc, h, hempty, if_pos hfail, Bool.not_true, Bool.false_eq_true,
    if_false, Option.bind_eq_bind, Option.bind_some, Option.pure_def]

private theorem replyBuf_length (fresh : Nat → UInt8) (segment : List UInt8) :
    (replyBuf fresh segment).length = HANDSHAKE_LEN := by
  simp only [replyBuf, List.length_append, List.length_take, List.length_drop, List.length_map,
    List.length_range]
  omega

private theorem performHandshake_received (fresh freshPstr : Nat → UInt8)
    (infoHash : List.Vector UInt8 BT_HASH_LENGTH) {segment : List UInt8} (hseg : segment ≠ [])
    (pending : List (List UInt8)) :
    performHandshake fresh freshPstr infoHash true ⟨segment :: pending⟩ =
      (decodeHandshakeMsg freshPstr (replyBuf fresh segment) HANDSHAKE_LEN).map fun reply =>
        (reply.any fun hm => decide (hm.infoHash = infoHash),
          (Conn.receiveData ⟨segment :: pending⟩ HANDSHAKE_LEN).2.2) := by
  have hmalloc : malloc fresh HANDSHAKE_LEN = some ((List.range HANDSHAKE_LEN).map fresh) := rfl
  have hpos : 0 < segment.length := List.length_pos_iff.mpr hseg
  have hwrite : writeAt ((List.range HANDSHAKE_LEN).map fresh) 0 (segment.take HANDSHAKE_LEN) =
      some (replyBuf fresh segment) := by
    rw [writeAt_of_le (by simp), List.take_zero, List.nil_append, Nat.zero_add, replyBuf,
      List.length_take]
    by_cases hle : segment.length ≤ HANDSHAKE_LEN
    · rw [Nat.min_eq_right hle]
    · rw [List.drop_eq_nil_of_le (by simp; omega), List.drop_eq_nil_of_le (by simp; omega)]
  have hsome : ¬ ((segment.take HANDSHAKE_LEN).length : Int) ≤ 0 := by
    rw [List.length_take, HANDSHAKE_LEN]
    omega
  have hrecv : Conn.receiveData ⟨segment :: pending⟩ HANDSHAKE_LEN = _ :=
    Conn.receiveData_cons hseg (by decide) (by decide)
  unfold performHandshake
  simp only [Conn.sent_length, hmalloc, hrecv, hwrite, if_neg hsome, Bool.not_true,
    Bool.false_eq_true, if_false, Option.bind_eq_bind, Option.bind_some]
  cases decodeHandshakeMsg freshPstr (replyBuf fresh segment) HANDSHAKE_LEN with
  | none => rfl
  | some decoded => cases decoded <;> rfl

private theorem exists_replyBuf (fresh : Nat → UInt8) {segment : List UInt8} (hseg : segment ≠ []) :
    ∃ b bytes, segment.head? = some b ∧ replyBuf fresh segment = b :: bytes := by
  cases segment with
  | nil => contradiction
  | cons b tail => exact ⟨b, _, rfl, rfl⟩

/-- The step leaves its memory on a reply whose first byte is the length of the whole handshake or
more, and on no other. -/
theorem performHandshake_eq_none_iff (fresh freshPstr : Nat → UInt8)
    (infoHash : List.Vector UInt8 BT_HASH_LENGTH) (sent : Bool) (c : Conn) :
    performHandshake fresh freshPstr infoHash sent c = none ↔
      sent = true ∧ ∃ b, c.pending.head?.bind List.head? = some b ∧ HANDSHAKE_LEN ≤ b.toNat := by
  cases sent with
  | false => exact iff_of_false (Option.some_ne_none _) (fun h => Bool.false_ne_true h.1)
  | true =>
    rw [eq_self, true_and]
    obtain ⟨_ | ⟨segment, pending⟩⟩ := c
    · rw [performHandshake_failed fresh freshPstr infoHash rfl (by decide)]
      exact iff_of_false (Option.some_ne_none _) (by simp)
    · by_cases hseg : segment = []
      · subst hseg
        rw [performHandshake_failed fresh freshPstr infoHash rfl (by decide)]
        exact iff_of_false (Option.some_ne_none _) (by simp)
      · obtain ⟨b, bytes, hhead, hbuf⟩ := exists_replyBuf fresh hseg
        have hlen : (b :: bytes).length = HANDSHAKE_LEN := hbuf ▸ replyBuf_length fresh segment
        rw [performHandshake_received fresh freshPstr infoHash hseg, Option.map_eq_none_iff, hbuf]
        simp only [List.head?_cons, Option.bind_some, hhead, Option.some.injEq, exists_eq_left']
        rcases decode_reply freshPstr hlen with ⟨hlarge, hnone⟩ | ⟨hsmall, decoded, hsome, -⟩
        · exact iff_of_true hnone hlarge
        · rw [hsome]
          exact iff_of_false (Option.some_ne_none _) (by omega)

/-- The step goes on exactly over a buffer with the torrent's info hash in its place. -/
theorem performHandshake_eq_true_iff {fresh freshPstr : Nat → UInt8}
    {infoHash : List.Vector UInt8 BT_HASH_LENGTH} {c c' : Conn} :
    performHandshake fresh freshPstr infoHash true c = some (true, c') ↔
      ∃ segment, c.pending.head? = some segment ∧ segment ≠ [] ∧
        NamesHash infoHash (replyBuf fresh segment) ∧ c' = (c.receiveData HANDSHAKE_LEN).2.2 := by
  obtain ⟨_ | ⟨segment, pending⟩⟩ := c
  · rw [performHandshake_failed fresh freshPstr infoHash rfl (by decide)]
    simp
  · by_cases hseg : segment = []
    · subst hseg
      rw [performHandshake_failed fresh freshPstr infoHash rfl (by decide)]
      simp
    · obtain ⟨b, bytes, -, hbuf⟩ := exists_replyBuf fresh hseg
      have hlen : (b :: bytes).length = HANDSHAKE_LEN := hbuf ▸ replyBuf_length fresh segment
      rw [performHandshake_received fresh freshPstr infoHash hseg]
      simp only [List.head?_cons, Option.some.injEq, exists_eq_left', hbuf]
      rcases decode_reply freshPstr hlen with ⟨hlarge, hnone⟩ | ⟨-, decoded, hsome, hnames⟩
      · rw [hnone]
        refine iff_of_false (Option.some_ne_none _).symm ?_
        rintro ⟨-, ⟨b', hhead, hle, -⟩, -⟩
        cases hhead
        exact absurd (hlarge.trans hle) (by decide)
      · rw [hsome, ← hnames infoHash, Option.map_some, Option.some.injEq, Prod.mk.injEq]
        exact ⟨fun h => ⟨hseg, h.1, h.2.symm⟩, fun h => ⟨h.2.1, h.2.2.symm⟩⟩

theorem replyBuf_of_le (fresh : Nat → UInt8) {segment : List UInt8}
    (h : HANDSHAKE_LEN ≤ segment.length) : replyBuf fresh segment = segment.take HANDSHAKE_LEN := by
  rw [replyBuf, List.drop_eq_nil_of_le (by simpa using h), List.append_nil]

end BitTorrentBits
