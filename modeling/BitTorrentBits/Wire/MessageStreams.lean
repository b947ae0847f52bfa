import BitTorrentBits.Wire.Frames

/-!
# Streams of messages

What one call of `read_message_from_conn` after the other finds on a connection. A call takes
bytes off the front and puts none back, so the connection is known by how many it has taken.
-/

namespace BitTorrentBits

def skipBytes : Nat → List (List UInt8) → List (List UInt8)
  | _, [] => []
  | n, segment :: pending =>
    if segment.length ≤ n then skipBytes (n - segment.length) pending
    else segment.drop n :: pending

theorem skipBytes_zero {pending : List (List UInt8)} (h : [] ∉ pending) :
    skipBytes 0 pending = pending := by
  cases pending with
  | nil => rfl
  | cons segment pending =>
    rw [List.mem_cons, not_or] at h
    have hlen := List.length_pos_iff.mpr (Ne.symm h.1)
    rw [skipBytes, if_neg (by omega), List.drop_zero]

theorem skipBytes_skipBytes (m n : Nat) (pending : List (List UInt8)) :
    skipBytes n (skipBytes m pending) = skipBytes (m + n) pending := by
  induction pending generalizing m with
  | nil => rfl
  | cons segment pending ih =>
    rw [skipBytes, skipBytes]
    by_cases hm : segment.length ≤ m
    · rw [if_pos hm, if_pos (by omega), ih, Nat.sub_add_comm hm]
    · rw [if_neg hm, skipBytes, List.length_drop]
      by_cases hn : segment.length ≤ m + n
      · rw [if_pos (by omega), if_pos hn]
        congr 1
        omega
      · rw [if_neg (by omega), if_neg hn, List.drop_drop]

theorem skipBytes_flatten (n : Nat) (pending : List (List UInt8)) :
    (skipBytes n pending).flatten = pending.flatten.drop n := by
  induction pending generalizing n with
  | nil => simp [skipBytes]
  | cons segment pending ih =>
    rw [skipBytes, List.flatten_cons, List.drop_append]
    split_ifs with hle
    · rw [ih, List.drop_eq_nil_of_le hle, List.nil_append]
    · rw [List.flatten_cons, Nat.sub_eq_zero_of_le (by omega), List.drop_zero]

theorem nil_not_mem_skipBytes {pending : List (List UInt8)} (h : [] ∉ pending) (n : Nat) :
    [] ∉ skipBytes n pending := by
  induction pending generalizing n with
  | nil => exact h
  | cons segment pending ih =>
    rw [List.mem_cons, not_or] at h
    rw [skipBytes]
    split_ifs with hle
    · exact ih h.2 _
    · rw [List.mem_cons, not_or, eq_comm, List.drop_eq_nil_iff]
      exact ⟨hle, h.2⟩

namespace Conn

/-- The connection with its first `n` bytes taken. -/
def after (c : Conn) (n : Nat) : Conn := ⟨skipBytes n c.pending⟩

/-- Bytes have been taken off the front, and nothing else has changed. -/
def Advances (c c' : Conn) : Prop := [] ∉ c'.pending ∧ ∃ n, c' = c.after n

variable {c c' c'' : Conn}

theorem after_zero (h : [] ∉ c.pending) : c.after 0 = c := congrArg Conn.mk (skipBytes_zero h)

theorem after_after (m n : Nat) : (c.after m).after n = c.after (m + n) :=
  congrArg Conn.mk (skipBytes_skipBytes m n c.pending)

theorem after_flatten (n : Nat) : (c.after n).pending.flatten = c.pending.flatten.drop n :=
  skipBytes_flatten n c.pending

theorem Delivers.after {stream : List UInt8} (h : c.Delivers stream) (n : Nat) :
    (c.after n).Delivers (stream.drop n) := by
  refine ⟨nil_not_mem_skipBytes h.1 n, ?_⟩
  rw [after_flatten, h.2]

theorem Advances.refl (h : [] ∉ c.pending) : c.Advances c := ⟨h, 0, (after_zero h).symm⟩

theorem Advances.trans (h : c.Advances c') (h' : c'.Advances c'') : c.Advances c'' := by
  obtain ⟨-, m, rfl⟩ := h
  obtain ⟨hnil, n, rfl⟩ := h'
  exact ⟨hnil, m + n, after_after m n⟩

theorem Advances.eq_after (h : c.Advances c') {taken rest : List UInt8}
    (hdel : c.Delivers (taken ++ rest)) (hrest : c'.Delivers rest) :
    c' = c.after taken.length := by
  obtain ⟨hnil, n, rfl⟩ := h
  have hleft := (hdel.after n).2.symm.trans hrest.2
  have hlen := congrArg List.length hleft
  rw [List.length_drop, List.length_append] at hlen
  by_cases hempty : rest = []
  · subst hempty
    have hdone (k : Nat) (hk : taken.length ≤ k) : (c.after k).pending = [] := by
      obtain ⟨hne, hflat⟩ := hdel.after k
      rw [List.append_nil, List.drop_eq_nil_of_le hk, List.flatten_eq_nil_iff] at hflat
      exact List.eq_nil_iff_forall_not_mem.mpr fun segment hmem =>
        hne (hflat segment hmem ▸ hmem)
    rw [List.length_nil] at hlen
    exact congrArg Conn.mk ((hdone n (by omega)).trans (hdone _ (Nat.le_refl _)).symm)
  · have hpos := List.length_pos_iff.mpr hempty
    congr 1
    omega

theorem receiveData_advances {bufSize : Nat} {received : Int} {got : List UInt8}
    (hne : [] ∉ c.pending) (h : c.receiveData bufSize = (received, got, c')) : c.Advances c' := by
  obtain ⟨pending⟩ := c
  cases pending with
  | nil =>
    cases h
    exact .refl hne
  | cons segment pending =>
    cases h
    rw [List.mem_cons, not_or] at hne
    refine ⟨(delivers_after bufSize hne.2).1, min bufSize segment.length, ?_⟩
    unfold after
    rw [skipBytes]
    by_cases hle : segment.length ≤ bufSize
    · rw [if_pos hle, if_pos (by omega), Nat.min_eq_right hle, Nat.sub_self, skipBytes_zero hne.2]
    · rw [if_neg hle, if_neg (by omega), Nat.min_eq_left (by omega)]

end Conn

namespace Message

private theorem read_of_bad_length (fresh : Nat → UInt8) {c c₁ : Conn} {buf : List UInt8} {n : Nat}
    (hrecv : c.receiveData 5 = (5, buf, c₁)) (hlen : buf.length = 5)
    (hnum : bigEndianToLu buf MSG_LEN_BYTES = some n)
    (hbad : n = 0 ∨ 2 ^ 63 ≤ toULong (n - MSG_ID_BYTES)) :
    readMessageFromConn fresh c = some (none, c₁) := by
  obtain ⟨id, hid⟩ : ∃ id, buf[MSG_LEN_BYTES]? = some id :=
    ⟨_, List.getElem?_eq_getElem (by rw [hlen]; decide)⟩
  rw [readMessageFromConn, show MSG_LEN_BYTES + MSG_ID_BYTES = 5 from rfl, hrecv]
  simp only [hnum, hid, show ¬ (5 : Int) ≤ 0 by decide, show toULong 5 = 5 from rfl, ne_eq,
    not_true_eq_false, if_false, Option.bind_eq_bind, Option.bind_some]
  split_ifs with hzero hlarge
  · rfl
  · rfl
  · exact (hbad.elim hzero hlarge).elim

/-- However the bytes are split and whatever length a header gives, a call ends inside its memory,
and nothing shows of what its payload buffer held before. -/
theorem exists_read (c : Conn) :
    ∃ reply c', ∀ fresh, readMessageFromConn fresh c = some (reply, c') := by
  have hpos : 0 < MSG_LEN_BYTES + MSG_ID_BYTES := by decide
  obtain ⟨received, buf, c₁, hrecv, hcase⟩ := c.receiveData_cases hpos (by decide)
  rcases hcase with hfail | ⟨rfl, -, hle⟩
  · refine ⟨none, c₁, fun fresh => ?_⟩
    rw [readMessageFromConn, hrecv]
    simp only [if_pos hfail]
  change buf.length ≤ 5 at hle
  by_cases hwhole : buf.length = 5
  · rw [hwhole] at hrecv
    have hfour : 4 ≤ buf.length := by omega
    have hnum := bigEndianToLu_take hfour
    rcases toULong_toInt_cases (bigEndianValue_take_lt buf) with ⟨hvalue, hsame⟩ | ⟨hvalue, hsigned⟩
    · rw [hsame] at hnum
      generalize bigEndianValue (buf.take 4) = n at hnum hvalue
      cases n with
      | zero =>
        exact ⟨none, c₁, fun fresh => read_of_bad_length fresh hrecv hwhole hnum (Or.inl rfl)⟩
      | succ payloadLen =>
        have hsmall : payloadLen < 2 ^ 31 := by omega
        obtain ⟨calls, all, c', hcalls⟩ := exists_receives 0 c₁ hsmall
        have hid : buf[MSG_LEN_BYTES]? = some _ :=
          List.getElem?_eq_getElem (by rw [hwhole]; decide)
        refine ⟨_, c', fun fresh => readMessageFromConn_of_header fresh hrecv hnum hid hvalue
          (receivePayload_fresh fresh hcalls (by omega)) ?_⟩
        intro bytes hbytes
        cases all with
        | false => cases hbytes
        | true =>
          cases hbytes
          exact hcalls.length
    · refine ⟨none, c₁, fun fresh => read_of_bad_length fresh hrecv hwhole hnum (Or.inr ?_)⟩
      have hlt := bigEndianValue_take_lt buf
      rw [hsigned]
      change 2 ^ 63 ≤ toULong ((bigEndianValue (buf.take 4) + (2 ^ 64 - 2 ^ 32) : Nat) - (1 : Nat))
      rw [toULong_sub (by omega) (by omega)]
      omega
  · refine ⟨none, c₁, fun fresh => ?_⟩
    have hcount : toULong (buf.length : Int) = buf.length := toULong_natCast (by omega)
    rw [readMessageFromConn, hrecv]
    simp only [hcount]
    rw [if_pos (show buf.length ≠ MSG_LEN_BYTES + MSG_ID_BYTES from hwhole), ite_self]

theorem readMessageFromConn_fresh (fresh fresh' : Nat → UInt8) (c : Conn) :
    readMessageFromConn fresh c = readMessageFromConn fresh' c := by
  obtain ⟨reply, c', h⟩ := exists_read c
  rw [h fresh, h fresh']

/-- Calls of `read_message_from_conn` one after the other, with what they return; each has a
payload buffer of its own. -/
inductive ReadsOff : Conn → List (Option Message) → Conn → Prop
  | nil (c : Conn) : ReadsOff c [] c
  | cons {fresh : Nat → UInt8} {c c' c'' : Conn} {reply : Option Message}
      {replies : List (Option Message)} (h : readMessageFromConn fresh c = some (reply, c'))
      (hrest : ReadsOff c' replies c'') : ReadsOff c (reply :: replies) c''

variable {fresh : Nat → UInt8} {c c' c'' : Conn} {reply : Option Message}
  {replies more : List (Option Message)}

theorem ReadsOff.of_read {reply' : Option Message} (h : ReadsOff c (reply :: replies) c')
    (hread : readMessageFromConn fresh c = some (reply', c'')) :
    reply' = reply ∧ ReadsOff c'' replies c' := by
  cases h with
  | @cons fresh' _ _ _ _ _ hfirst hrest =>
    rw [readMessageFromConn_fresh fresh' fresh, hread, Option.some.injEq, Prod.mk.injEq] at hfirst
    obtain ⟨rfl, rfl⟩ := hfirst
    exact ⟨rfl, hrest⟩

theorem ReadsOff.exists_read (h : ReadsOff c (reply :: replies) c') (fresh : Nat → UInt8) :
    ∃ c₁, readMessageFromConn fresh c = some (reply, c₁) ∧ ReadsOff c₁ replies c' := by
  obtain ⟨reply', c₁, hread⟩ := Message.exists_read c
  obtain ⟨rfl, hrest⟩ := h.of_read (hread fresh)
  exact ⟨c₁, hread fresh, hrest⟩

theorem ReadsOff.append (h : ReadsOff c replies c') (h' : ReadsOff c' more c'') :
    ReadsOff c (replies ++ more) c'' := by
  induction h with
  | nil => exact h'
  | cons hread _ ih => exact .cons hread (ih h')

theorem ReadsOff.split (h : ReadsOff c replies c') (h' : ReadsOff c more c'')
    (hlen : replies.length ≤ more.length) :
    ∃ rest, more = replies ++ rest ∧ ReadsOff c' rest c'' := by
  induction h generalizing more with
  | nil => exact ⟨more, rfl, h'⟩
  | cons hread _ ih =>
    cases more with
    | nil => contradiction
    | cons reply' more =>
      obtain ⟨rfl, hrest'⟩ := h'.of_read hread
      obtain ⟨rest, rfl, hrest⟩ := ih hrest' (Nat.le_of_succ_le_succ hlen)
      exact ⟨rest, rfl, hrest⟩

theorem readMessageFromConn_cases (h : readMessageFromConn fresh c = some (reply, c')) :
    ∃ received buf c₁, c.receiveData (MSG_LEN_BYTES + MSG_ID_BYTES) = (received, buf, c₁) ∧
      ((reply = none ∧ c' = c₁) ∨ ∃ payloadLen payload, payloadLen < 2 ^ 63 ∧
        receivePayload payloadLen (payloadLen + 1) c₁ 0 ((List.range payloadLen).map fresh) =
          some (payload, c') ∧ ∀ m, reply = some m → m.payloadLen = payloadLen) := by
  cases hrecv : c.receiveData (MSG_LEN_BYTES + MSG_ID_BYTES) with
  | mk received r =>
    obtain ⟨buf, c₁⟩ := r
    refine ⟨received, buf, c₁, rfl, ?_⟩
    simp only [readMessageFromConn, hrecv] at h
    split at h
    · cases h
      exact Or.inl ⟨rfl, rfl⟩
    split at h
    · cases h
      exact Or.inl ⟨rfl, rfl⟩
    obtain ⟨number, -, h⟩ := Option.bind_eq_some_iff.mp h
    split at h
    · cases h
      exact Or.inl ⟨rfl, rfl⟩
    obtain ⟨msgId, -, h⟩ := Option.bind_eq_some_iff.mp h
    split at h
    · cases h
      exact Or.inl ⟨rfl, rfl⟩
    rename_i hlarge
    obtain ⟨⟨payload, c₂⟩, hloop, h⟩ := Option.bind_eq_some_iff.mp h
    right
    cases payload with
    | none =>
      cases h
      refine ⟨_, none, Nat.lt_of_not_le hlarge, hloop, ?_⟩
      intro m hm
      cases hm
    | some bytes =>
      obtain ⟨m, hm, h⟩ := Option.bind_eq_some_iff.mp h
      cases h
      refine ⟨_, some bytes, Nat.lt_of_not_le hlarge, hloop, ?_⟩
      intro m' hm'
      cases hm'
      obtain ⟨block, hblock, rfl⟩ := Option.map_eq_some_iff.mp hm
      have hle := readAt_le hblock
      rw [readAt_of_le hle, Option.some.injEq, List.drop_zero] at hblock
      rw [Message.payloadLen, ← hblock, List.length_take]
      omega

theorem payloadLen_of_read {m : Message}
    (h : readMessageFromConn fresh c = some (some m, c')) : m.payloadLen < 2 ^ 63 := by
  obtain ⟨_, _, _, -, ⟨hnone, -⟩ | ⟨payloadLen, _, hlt, -, hlen⟩⟩ := readMessageFromConn_cases h
  · contradiction
  · rw [hlen m rfl]
    exact hlt

theorem ReadsOff.payloadLen_lt (h : ReadsOff c replies c') {m : Message}
    (hm : some m ∈ replies) : m.payloadLen < 2 ^ 63 := by
  induction h with
  | nil => contradiction
  | cons hread _ ih =>
    rcases List.mem_cons.mp hm with rfl | hm
    · exact payloadLen_of_read hread
    · exact ih hm

private theorem receivePayload_advances {payloadLen fuel : Nat} {received : Int}
    {buf : List UInt8} {payload : Option (List UInt8)} (hne : [] ∉ c.pending)
    (h : receivePayload payloadLen fuel c received buf = some (payload, c')) : c.Advances c' := by
  induction fuel generalizing c received buf with
  | zero => contradiction
  | succ fuel ih =>
    rw [receivePayload] at h
    split_ifs at h with hmore
    · cases hrecv : c.receiveData (toULong (payloadLen - received)) with
      | mk count r =>
        obtain ⟨got, c₁⟩ := r
        have hfirst := Conn.receiveData_advances hne hrecv
        simp only [hrecv] at h
        split_ifs at h
        · cases h
          exact hfirst
        · obtain ⟨buf', -, h⟩ := Option.bind_eq_some_iff.mp h
          obtain ⟨received', -, h⟩ := Option.bind_eq_some_iff.mp h
          exact hfirst.trans (ih hfirst.1 h)
    · cases h
      exact .refl hne

theorem readMessageFromConn_advances (hne : [] ∉ c.pending)
    (h : readMessageFromConn fresh c = some (reply, c')) : c.Advances c' := by
  obtain ⟨_, _, c₁, hrecv, hcase⟩ := readMessageFromConn_cases h
  have hheader := Conn.receiveData_advances hne hrecv
  rcases hcase with ⟨-, rfl⟩ | ⟨_, _, -, hloop, -⟩
  · exact hheader
  · exact hheader.trans (receivePayload_advances hheader.1 hloop)

def wire (m : Message) : List UInt8 := frame (m.id :: m.payload)

theorem encodeMessage_wire (m : Message) : m.encodeMessage = some m.wire := encodeMessage_eq m

theorem wire_eq (m : Message) : m.wire = m.header ++ m.payload := by
  rw [header, List.append_assoc]
  rfl

theorem wire_length (m : Message) : m.wire.length = m.payload.length + 5 := by
  rw [wire_eq, List.length_append, header_length, Nat.add_comm]

theorem read_wire (fresh : Nat → UInt8) {m : Message} {rest : List UInt8}
    (hlen : m.payload.length + 1 < 2 ^ 31) (h : c.Delivers (m.wire ++ rest))
    (hwhole : HeaderArrivesWhole c) :
    readMessageFromConn fresh c = some (some m, c.after m.wire.length) := by
  rw [wire_eq] at h
  obtain ⟨c', hread, hrest⟩ : ∃ c', readMessageFromConn fresh c = some (some m, c') ∧
      c'.Delivers rest := read_of_header hlen h hwhole
  rw [hread, (readMessageFromConn_advances h.1 hread).eq_after h hrest, wire_eq]

/-- The first `recv` for each message of the stream brings the whole of its header. -/
def HeadersArriveWhole (c : Conn) (ms : List Message) : Prop :=
  ∀ k < ms.length, HeaderArrivesWhole (c.after ((ms.take k).flatMap wire).length)

theorem headersArriveWhole_cons {m : Message} {ms : List Message} (hne : [] ∉ c.pending) :
    HeadersArriveWhole c (m :: ms) ↔
      HeaderArrivesWhole c ∧ HeadersArriveWhole (c.after m.wire.length) ms := by
  constructor
  · intro h
    constructor
    · have hfirst := h 0 (Nat.succ_pos _)
      rwa [List.take_zero, List.flatMap_nil, List.length_nil, Conn.after_zero hne] at hfirst
    · intro k hk
      have hlater := h (k + 1) (Nat.succ_lt_succ hk)
      rwa [List.take_succ_cons, List.flatMap_cons, List.length_append, ← Conn.after_after] at hlater
  · rintro ⟨hfirst, hrest⟩ k hk
    cases k with
    | zero =>
      rw [List.take_zero, List.flatMap_nil, List.length_nil, Conn.after_zero hne]
      exact hfirst
    | succ k =>
      rw [List.take_succ_cons, List.flatMap_cons, List.length_append, ← Conn.after_after]
      exact hrest k (Nat.lt_of_succ_lt_succ hk)

/-- Over every splitting of a stream of messages, one call after the other returns these
messages and leaves what is behind them exactly when no header is split. -/
theorem readsOff_iff_headersArriveWhole (ms : List Message)
    (hlen : ∀ m ∈ ms, m.payload.length + 1 < 2 ^ 31) {rest : List UInt8}
    (h : c.Delivers (ms.flatMap wire ++ rest)) :
    (∃ c', ReadsOff c (ms.map some) c' ∧ c'.Delivers rest) ↔ HeadersArriveWhole c ms := by
  induction ms generalizing c with
  | nil =>
    constructor
    · intro _ k hk
      contradiction
    · intro _
      exact ⟨c, .nil c, h⟩
  | cons m ms ih =>
    rw [List.flatMap_cons, List.append_assoc] at h
    have hm := hlen m List.mem_cons_self
    have hms : ∀ m ∈ ms, m.payload.length + 1 < 2 ^ 31 := fun q hq =>
      hlen q (List.mem_cons_of_mem _ hq)
    have hafter := h.after m.wire.length
    rw [List.drop_left] at hafter
    rw [headersArriveWhole_cons h.1]
    constructor
    · rintro ⟨c', hreads, hrest⟩
      cases hreads with
      | @cons fresh _ _ _ _ _ hread hreads =>
        have hwhole : HeaderArrivesWhole c := by
          by_contra hpart
          have hnone := read_of_partial_header fresh h (by simp [wire_eq, header]) hpart
          rw [hread] at hnone
          simp at hnone
        rw [read_wire fresh hm h hwhole] at hread
        cases hread
        exact ⟨hwhole, (ih hms hafter).mp ⟨c', hreads, hrest⟩⟩
    · rintro ⟨hwhole, hlater⟩
      obtain ⟨c', hreads, hrest⟩ := (ih hms hafter).mpr hlater
      exact ⟨c', .cons (read_wire (fun _ => 0) hm h hwhole) hreads, hrest⟩

/-- A `Have` message and an `Unchoke` message in three segments. -/
theorem readsOff_iff_headersArriveWhole_two :
    ∃ c', ReadsOff ⟨[[0, 0, 0, 5, 4, 0], [0, 0, 9], [0, 0, 0, 1, 1, 7]]⟩
      [some ⟨4, [0, 0, 0, 9]⟩, some ⟨1, []⟩] c' ∧ c'.Delivers [7] := by
  apply (readsOff_iff_headersArriveWhole [⟨4, [0, 0, 0, 9]⟩, ⟨1, []⟩] (by decide)
    ⟨by decide, rfl⟩).mpr
  intro k hk
  have hcases : k = 0 ∨ k = 1 := by
    rw [List.length_cons, List.length_cons, List.length_nil] at hk
    omega
  rcases hcases with rfl | rfl
  · exact ⟨_, rfl, by decide⟩
  · exact ⟨_, rfl, by decide⟩

end Message

end BitTorrentBits
