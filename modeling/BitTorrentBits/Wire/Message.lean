import BitTorrentBits.Wire.BigEndian
import BitTorrentBits.Wire.Conn

/-!
# Peer messages

`message.c`: a message is an id and a payload, preceded on the wire by the four-byte length
of both. The header is read with one `receive_data`, the payload with as many as it takes.
-/

namespace BitTorrentBits

/-- `MSG_LEN_BYTES`, the bytes of the message length. -/
def MSG_LEN_BYTES : Nat := 4

def MSG_ID_BYTES : Nat := 1

/-- The payload pointer is NULL exactly when the payload is empty. -/
structure Message where
  id : UInt8
  payload : List UInt8
  deriving DecidableEq

namespace Message

def payloadLen (m : Message) : Nat := m.payload.length

/-- `none` is a read outside `payload`. -/
def initMessage (msgId : UInt8) (payloadLen : Nat) (payload : List UInt8) : Option Message :=
  (readAt payload 0 payloadLen).map (Message.mk msgId)

def encodeMessage (m : Message) : Option (List UInt8) :=
  let size := MSG_LEN_BYTES + MSG_ID_BYTES + m.payloadLen
  let (ok, length) := luToBigEndian (size - MSG_LEN_BYTES) MSG_LEN_BYTES
  if !ok then none
  else some (length ++ m.id :: m.payload)

/-- The payload loop, in at most `fuel` rounds: the payload, or NULL after a failed
`receive_data`. The outer `none` is a write outside the buffer, an overflow of the `int`
counter, or the end of the fuel. -/
def receivePayload (payloadLen : Nat) :
    Nat → Conn → Int → List UInt8 → Option (Option (List UInt8) × Conn)
  | 0, _, _, _ => none
  | fuel + 1, c, bytesReceived, payloadBuf =>
    if toULong bytesReceived < payloadLen then
      let (received, got, c') := c.receiveData (toULong (payloadLen - bytesReceived))
      if received ≤ 0 then some (none, c')
      else do
        let payloadBuf' ← writeAt payloadBuf bytesReceived.toNat got
        let bytesReceived' ← addInt bytesReceived received
        receivePayload payloadLen fuel c' bytesReceived' payloadBuf'
    else some (some payloadBuf, c)

/-- The message read, or NULL, and the connection after it; `fresh` is what the new payload
buffer happens to hold. `malloc` fails for a buffer of `2 ^ 63` bytes or more, and `recv`
into NULL fails too. -/
def readMessageFromConn (fresh : Nat → UInt8) (c : Conn) : Option (Option Message × Conn) :=
  let (bytesReceived, buf, c') := c.receiveData (MSG_LEN_BYTES + MSG_ID_BYTES)
  if bytesReceived ≤ 0 then some (none, c')
  else if toULong bytesReceived ≠ MSG_LEN_BYTES + MSG_ID_BYTES then some (none, c')
  else do
    let payloadLenPlusMsgIdLen ← bigEndianToLu buf MSG_LEN_BYTES
    if payloadLenPlusMsgIdLen = 0 then return (none, c')
    let payloadLen := toULong (payloadLenPlusMsgIdLen - MSG_ID_BYTES)
    let msgId ← buf[MSG_LEN_BYTES]?
    if 2 ^ 63 ≤ payloadLen then return (none, c')
    let (payload, c'') ←
      receivePayload payloadLen (payloadLen + 1) c' 0 ((List.range payloadLen).map fresh)
    match payload with
    | none => return (none, c'')
    | some payload => return (some (← initMessage msgId payloadLen payload), c'')

/-- The first `recv` delivers the length and the id of a message. -/
def HeaderArrivesWhole (c : Conn) : Prop :=
  ∃ segment, c.pending.head? = some segment ∧ MSG_LEN_BYTES + MSG_ID_BYTES ≤ segment.length

theorem encodeMessage_eq (m : Message) :
    m.encodeMessage = some ((luToBigEndian (m.payload.length + 1) 4).2 ++ m.id :: m.payload) := by
  unfold encodeMessage
  have hsize : MSG_LEN_BYTES + MSG_ID_BYTES + m.payloadLen - MSG_LEN_BYTES =
      m.payload.length + 1 := by
    unfold MSG_LEN_BYTES MSG_ID_BYTES payloadLen
    omega
  simp only [hsize, luToBigEndian_fst]
  rfl

private theorem writeAt_received (received got junk : List UInt8) (h : got.length ≤ junk.length) :
    writeAt (received ++ junk) received.length got =
      some ((received ++ got) ++ junk.drop got.length) := by
  rw [writeAt_of_le (by simp only [List.length_append]; omega), List.take_left,
    ← List.drop_drop, List.drop_left]

/-- One call of `receive_data` in the payload loop: the range of `payload_buf` that it is
given, what it returns, and the bytes it puts there. -/
structure PayloadRecv where
  offset : Int
  size : Nat
  received : Int
  got : List UInt8

/-- Calls for the `want` bytes from `offset` on, each of them for all that are missing then,
up to one that fails or to the last byte. -/
inductive Receives : Nat → Nat → Conn → List PayloadRecv → Bool → Conn → Prop
  | whole (offset : Nat) (c : Conn) : Receives offset 0 c [] true c
  | fails {offset want : Nat} {c c' : Conn} {received : Int} {got : List UInt8}
      (hwant : 0 < want) (h : c.receiveData want = (received, got, c')) (hfail : received ≤ 0) :
      Receives offset want c [⟨offset, want, received, got⟩] false c'
  | chunk {offset left : Nat} {c c' c'' : Conn} {got : List UInt8} {calls : List PayloadRecv}
      {all : Bool} (hpos : 0 < got.length)
      (h : c.receiveData (got.length + left) = ((got.length : Int), got, c'))
      (hrest : Receives (offset + got.length) left c' calls all c'') :
      Receives offset (got.length + left) c
        (⟨offset, got.length + left, got.length, got⟩ :: calls) all c''

/-- The bytes that some calls put into the buffer. -/
def bytesOf (calls : List PayloadRecv) : List UInt8 := calls.flatMap PayloadRecv.got

@[simp] theorem bytesOf_nil : bytesOf [] = [] := rfl

@[simp] theorem bytesOf_cons (call : PayloadRecv) (calls : List PayloadRecv) :
    bytesOf (call :: calls) = call.got ++ bytesOf calls := List.flatMap_cons

variable {offset want : Nat} {c c' : Conn} {calls : List PayloadRecv} {all : Bool}

theorem exists_receives (offset : Nat) (c : Conn) (hmax : want < 2 ^ 31) :
    ∃ calls all c', Receives offset want c calls all c' := by
  induction want using Nat.strong_induction_on generalizing offset c with
  | _ want ih =>
    by_cases hzero : want = 0
    · subst hzero
      exact ⟨[], true, c, .whole offset c⟩
    · have hwant : 0 < want := Nat.pos_of_ne_zero hzero
      obtain ⟨received, got, c', h, hcase⟩ := c.receiveData_cases hwant hmax
      rcases hcase with hfail | ⟨rfl, hpos, hle⟩
      · exact ⟨_, false, c', .fails hwant h hfail⟩
      · obtain ⟨left, rfl⟩ := Nat.exists_eq_add_of_le hle
        obtain ⟨calls, all, c'', hrest⟩ := ih left (by omega) (offset + got.length) c' (by omega)
        exact ⟨_, all, c'', .chunk hpos h hrest⟩

theorem toULong_missing (hmax : offset + want < 2 ^ 31) :
    toULong ((offset + want : Nat) - offset : Int) = want := by
  rw [toULong_sub (by omega) (by omega), Nat.add_sub_cancel_left]

theorem receivePayload_of_receives (h : Receives offset want c calls all c') {fuel : Nat}
    (received junk : List UInt8) (hoffset : received.length = offset)
    (hjunk : junk.length = want) (hmax : offset + want < 2 ^ 31) (hfuel : want < fuel) :
    receivePayload (offset + want) fuel c offset (received ++ junk) =
      some (if all then some (received ++ bytesOf calls) else none, c') := by
  induction h generalizing received junk fuel with
  | whole offset c =>
    obtain ⟨n, rfl⟩ : ∃ n, fuel = n + 1 := ⟨fuel - 1, by omega⟩
    rw [receivePayload, toULong_natCast (by omega), if_neg (by omega),
      List.eq_nil_of_length_eq_zero hjunk, bytesOf_nil]
    rfl
  | fails hwant hrecv hfail =>
    obtain ⟨n, rfl⟩ : ∃ n, fuel = n + 1 := ⟨fuel - 1, by omega⟩
    rw [receivePayload, toULong_natCast (by omega), if_pos (by omega), toULong_missing hmax, hrecv]
    exact if_pos hfail
  | @chunk offset left c c' c'' got calls all hpos hrecv _ ih =>
    subst hoffset
    obtain ⟨n, rfl⟩ : ∃ n, fuel = n + 1 := ⟨fuel - 1, by omega⟩
    have hadd : addInt received.length got.length = some ((received.length + got.length : Nat) : Int) := by
      rw [addInt, if_pos (by omega), Int.natCast_add]
    have hjunk' : (junk.drop got.length).length = left := by
      rw [List.length_drop]
      omega
    have hloop := ih (received ++ got) (junk.drop got.length)
      List.length_append hjunk' (by omega) (show left < n by omega)
    have hcount : toULong (received.length : Int) = received.length := toULong_natCast (by omega)
    have hlt : received.length < received.length + (got.length + left) := by omega
    rw [receivePayload, hcount, if_pos hlt, toULong_missing hmax, hrecv]
    have hsome : ¬ (got.length : Int) ≤ 0 := by omega
    dsimp only
    rw [if_neg hsome, Int.toNat_natCast, writeAt_received received got junk (by omega), hadd]
    simp only [Option.bind_eq_bind, Option.bind_some]
    rw [← Nat.add_assoc, hloop, bytesOf_cons, List.append_assoc]

theorem receivePayload_fresh (fresh : Nat → UInt8) (h : Receives 0 want c calls all c')
    (hmax : want < 2 ^ 31) :
    receivePayload want (want + 1) c 0 ((List.range want).map fresh) =
      some (if all then some (bytesOf calls) else none, c') := by
  have hloop := receivePayload_of_receives h [] ((List.range want).map fresh) rfl (by simp)
    (by omega) (Nat.lt_succ_self want)
  rwa [Nat.zero_add, List.nil_append, List.nil_append] at hloop

theorem Receives.length (h : Receives offset want c calls true c') : (bytesOf calls).length = want := by
  generalize hall : true = all at h
  induction h with
  | whole => rfl
  | fails => contradiction
  | chunk _ _ _ ih => rw [bytesOf_cons, List.length_append, ih hall]

theorem Receives.of_delivers (h : Receives offset want c calls all c') {bytes rest : List UInt8}
    (hdel : c.Delivers (bytes ++ rest)) (hwant : bytes.length = want) (hmax : want < 2 ^ 31) :
    all = true ∧ bytesOf calls = bytes ∧ c'.Delivers rest := by
  induction h generalizing bytes with
  | whole =>
    rw [List.eq_nil_of_length_eq_zero hwant] at hdel ⊢
    exact ⟨rfl, rfl, hdel⟩
  | fails hpos hrecv hfail =>
    have hne : bytes ++ rest ≠ [] := by
      apply List.ne_nil_of_length_pos
      rw [List.length_append]
      omega
    obtain ⟨got, _, _, hrecv', hgot, -, -, -⟩ := Conn.receiveData_of_delivers hdel hne hpos hmax
    rw [hrecv] at hrecv'
    cases hrecv'
    have hlen := List.length_pos_iff.mpr hgot
    omega
  | @chunk _ left _ _ _ got _ _ hpos hrecv _ ih =>
    have hne : bytes ++ rest ≠ [] := by
      apply List.ne_nil_of_length_pos
      rw [List.length_append]
      omega
    obtain ⟨got', after, c', hrecv', -, -, hsplit, hdel'⟩ :=
      Conn.receiveData_of_delivers hdel hne (by omega) hmax
    rw [hrecv, Prod.mk.injEq, Prod.mk.injEq] at hrecv'
    obtain ⟨-, rfl, rfl⟩ := hrecv'
    have hgot : got <+: bytes ++ rest := ⟨after, hsplit.symm⟩
    obtain ⟨tail, rfl⟩ : got <+: bytes :=
      List.prefix_of_prefix_length_le hgot (List.prefix_append bytes rest) (by omega)
    rw [List.append_assoc] at hsplit
    rw [← List.append_cancel_left hsplit] at hdel'
    rw [List.length_append] at hwant
    obtain ⟨hall, hbytes, hrest⟩ := ih hdel' (by omega) (by omega)
    exact ⟨hall, by rw [bytesOf_cons, hbytes], hrest⟩

private theorem receivePayload_all (fresh : Nat → UInt8) {payload rest : List UInt8} {c : Conn}
    (h : c.Delivers (payload ++ rest)) (hmax : payload.length < 2 ^ 31) :
    ∃ c', receivePayload payload.length (payload.length + 1) c 0
      ((List.range payload.length).map fresh) = some (some payload, c') ∧ c'.Delivers rest := by
  obtain ⟨calls, all, c', hcalls⟩ := exists_receives 0 c hmax
  obtain ⟨rfl, hbytes, hrest⟩ := hcalls.of_delivers h rfl hmax
  have hloop := receivePayload_fresh fresh hcalls hmax
  rw [if_pos rfl, hbytes] at hloop
  exact ⟨c', hloop, hrest⟩

theorem readMessageFromConn_of_header (fresh : Nat → UInt8) {c c' c'' : Conn}
    {header : List UInt8} {msgId : UInt8} {payloadLen : Nat} {payload : Option (List UInt8)}
    (hrecv : c.receiveData 5 = (5, header, c'))
    (hnum : bigEndianToLu header MSG_LEN_BYTES = some (payloadLen + 1))
    (hid : header[MSG_LEN_BYTES]? = some msgId) (hmax : payloadLen + 1 < 2 ^ 31)
    (hloop : receivePayload payloadLen (payloadLen + 1) c' 0 ((List.range payloadLen).map fresh) =
      some (payload, c'')) (hsize : ∀ bytes, payload = some bytes → bytes.length = payloadLen) :
    readMessageFromConn fresh c = some (payload.map (Message.mk msgId), c'') := by
  have hsub : toULong ((payloadLen + 1 : Nat) - MSG_ID_BYTES : Int) = payloadLen :=
    toULong_sub (Nat.le_add_left 1 _) (by omega)
  rw [readMessageFromConn, show MSG_LEN_BYTES + MSG_ID_BYTES = 5 from rfl, hrecv]
  simp only [hnum, hid, show ¬ (5 : Int) ≤ 0 by decide, show toULong 5 = 5 from rfl, ne_eq,
    not_true_eq_false, if_false, Option.bind_eq_bind, Option.bind_some, Nat.add_one_ne_zero, hsub]
  rw [if_neg (by omega), hloop, Option.bind_some]
  cases payload with
  | none => rfl
  | some bytes =>
    have hinit : initMessage msgId payloadLen bytes = some ⟨msgId, bytes⟩ := by
      rw [initMessage, ← hsize bytes rfl, readAt_of_le (by omega)]
      simp
    simp only [hinit]
    rfl

/-- The length and the id of a message, as they stand before its payload. -/
def header (m : Message) : List UInt8 :=
  (luToBigEndian (m.payload.length + 1) 4).2 ++ [m.id]

theorem header_length (m : Message) : m.header.length = 5 := by
  simp [header]

theorem encodeMessage_header (m : Message) :
    m.encodeMessage = some (m.header ++ m.payload) := by
  rw [encodeMessage_eq, header, List.append_assoc]
  rfl

private theorem header_fields {m : Message} (hlen : m.payload.length + 1 < 2 ^ 31) :
    bigEndianToLu m.header MSG_LEN_BYTES = some (m.payload.length + 1) ∧
      m.header[MSG_LEN_BYTES]? = some m.id := by
  constructor
  · exact bigEndianToLu_luToBigEndian [m.id] (Nat.le_refl 4) hlen (by omega)
  · rw [header, List.getElem?_append_right (by simp [MSG_LEN_BYTES]), luToBigEndian_length]
    rfl

private theorem receive_header {m : Message} {rest : List UInt8} {c : Conn}
    (h : c.Delivers (m.header ++ m.payload ++ rest)) (hwhole : HeaderArrivesWhole c) :
    ∃ c', c.receiveData 5 = (5, m.header, c') ∧ c'.Delivers (m.payload ++ rest) := by
  obtain ⟨segment, pending, rfl⟩ := h.exists_cons (by simp [header])
  obtain ⟨hseg, hpending, hstream⟩ := h.cons
  obtain ⟨first, hfirst, hfive⟩ := hwhole
  cases hfirst
  change 5 ≤ segment.length at hfive
  have htake : segment.take 5 = m.header := by
    have hboth := congrArg (List.take 5) hstream
    rw [List.take_append_of_le_length hfive, List.append_assoc, ← m.header_length,
      List.take_left, header_length] at hboth
    exact hboth.symm
  have hdrop : segment.drop 5 ++ pending.flatten = m.payload ++ rest := by
    have hboth := congrArg (List.drop 5) hstream
    rw [List.drop_append_of_le_length hfive, List.append_assoc, ← m.header_length,
      List.drop_left, header_length] at hboth
    exact hboth.symm
  refine ⟨_, ?_, hdrop ▸ Conn.delivers_after 5 hpending⟩
  rw [Conn.receiveData_cons hseg (by decide) (by decide), htake, header_length]
  rfl

theorem read_of_header {fresh : Nat → UInt8} {m : Message} {rest : List UInt8} {c : Conn}
    (hlen : m.payload.length + 1 < 2 ^ 31) (h : c.Delivers (m.header ++ m.payload ++ rest))
    (hwhole : HeaderArrivesWhole c) :
    ∃ c', readMessageFromConn fresh c = some (some m, c') ∧ c'.Delivers rest := by
  obtain ⟨c', hrecv, hdel⟩ := receive_header h hwhole
  obtain ⟨c'', hloop, hrest⟩ := receivePayload_all fresh hdel (by omega)
  obtain ⟨hnum, hid⟩ := header_fields hlen
  refine ⟨c'', ?_, hrest⟩
  apply readMessageFromConn_of_header fresh hrecv hnum hid hlen hloop
  intro bytes hbytes
  rw [Option.some.inj hbytes]

theorem read_of_partial_header (fresh : Nat → UInt8) {c : Conn} {stream : List UInt8}
    (h : c.Delivers stream) (hne : stream ≠ []) (hpart : ¬ HeaderArrivesWhole c) :
    (readMessageFromConn fresh c).map Prod.fst = some none := by
  obtain ⟨segment, pending, rfl⟩ := h.exists_cons hne
  obtain ⟨hseg, -, -⟩ := h.cons
  have hpos : 0 < segment.length := List.length_pos_iff.mpr hseg
  have hshort : segment.length < 5 := by
    by_contra hlong
    exact hpart ⟨segment, rfl, Nat.le_of_not_lt hlong⟩
  have htake : segment.take (MSG_LEN_BYTES + MSG_ID_BYTES) = segment :=
    List.take_of_length_le (Nat.le_of_lt hshort)
  have hcount : toULong (segment.length : Int) = segment.length := toULong_natCast (by omega)
  have hne5 : segment.length ≠ MSG_LEN_BYTES + MSG_ID_BYTES := Nat.ne_of_lt hshort
  rw [readMessageFromConn, Conn.receiveData_cons hseg (by decide) (by decide), htake]
  simp only [hcount]
  rw [if_neg (by omega), if_pos hne5]
  rfl

/-- Over every splitting of a stream that begins with a message, the reader returns that
message and leaves the rest exactly when the first `recv` brings the whole header; then
every other such splitting of the stream gives the same result and the same rest. -/
theorem readMessageFromConn_iff_headerArrivesWhole (fresh : Nat → UInt8) (m : Message)
    (hlen : m.payload.length + 1 ≤ 2 ^ 31 - 1) {encoded rest : List UInt8}
    (henc : m.encodeMessage = some encoded) {c : Conn} (h : c.Delivers (encoded ++ rest)) :
    ((∃ c', readMessageFromConn fresh c = some (some m, c') ∧ c'.Delivers rest) ↔
      HeaderArrivesWhole c) ∧
    (HeaderArrivesWhole c → ∀ d : Conn, d.Delivers (encoded ++ rest) → HeaderArrivesWhole d →
      ∃ c' d' result, readMessageFromConn fresh c = some (result, c') ∧
        readMessageFromConn fresh d = some (result, d') ∧
        c'.pending.flatten = d'.pending.flatten) := by
  rw [encodeMessage_header] at henc
  cases henc
  constructor
  · constructor
    · rintro ⟨c', hread, -⟩
      by_contra hpart
      have hnone := read_of_partial_header fresh h (by simp [header]) hpart
      rw [hread] at hnone
      simp at hnone
    · exact read_of_header (by omega) h
  · intro hc d hd hdw
    obtain ⟨c', hcread, hcrest⟩ := read_of_header (by omega) h hc
    obtain ⟨d', hdread, hdrest⟩ := read_of_header (by omega) hd hdw
    exact ⟨c', d', some m, hcread, hdread, hcrest.2.trans hdrest.2.symm⟩

/-- A `Choke` message that arrives as three bytes and two is not read. -/
theorem readMessageFromConn_split_header :
    ¬ ∀ (fresh : Nat → UInt8) (m : Message) (encoded rest : List UInt8) (c : Conn),
      m.payload.length + 1 ≤ 2 ^ 31 - 1 → m.encodeMessage = some encoded →
      c.Delivers (encoded ++ rest) →
      ∃ c', readMessageFromConn fresh c = some (some m, c') ∧ c'.Delivers rest := by
  intro h
  obtain ⟨c', hread, -⟩ := h (fun _ => 0) ⟨0, []⟩ [0, 0, 0, 1, 0] [] ⟨[[0, 0, 0], [1, 0]]⟩
    (by decide) rfl ⟨by decide, rfl⟩
  cases hread

/-- A `Have` message in two segments, the header and one byte of the payload in the first. -/
theorem readMessageFromConn_iff_headerArrivesWhole_have :
    ∃ c', readMessageFromConn (fun _ => 0) ⟨[[0, 0, 0, 5, 4, 0], [0, 0, 9, 0, 0]]⟩ =
      some (some ⟨4, [0, 0, 0, 9]⟩, c') ∧ c'.Delivers [0, 0] :=
  (readMessageFromConn_iff_headerArrivesWhole (fun _ => 0) ⟨4, [0, 0, 0, 9]⟩ (by decide) rfl
    (c := ⟨[[0, 0, 0, 5, 4, 0], [0, 0, 9, 0, 0]]⟩) ⟨by decide, rfl⟩).1.mpr
    ⟨_, rfl, by decide⟩

end Message

end BitTorrentBits
